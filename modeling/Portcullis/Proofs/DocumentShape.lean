/-
  Portcullis.Proofs.DocumentShape — which values are read as documents, and as which.

  The shape of a document can be wrong at many places. All of them are listed in the order of
  the document (`faults`): the sections one after the other, a table entry by entry, a rule
  field by field. Each reader is exact for its faults, and for what it was told to read
  (`Exact`).
  - `exact_ofValue`: the whole reader is exact, for all the faults and for the document that a
    value holds (`Reads`).
  - `faults_eq_nil_iff`: nothing is wrong with the values that have the shape of a document
    (`WellShaped`), which is stated without the reader.
  - `ShapeFault.told`: a fault that would have to show a number of too many digits is not told.
  - `ofValue_congr`: other sections and fields do not count, nor does the order of those that do.
  - `document_of_value`: all of this about one value.
  - `a_long_action_is_not_told`: the number matters.
-/

import Mathlib.Data.List.Forall2
import Portcullis.Document.Reader
import Portcullis.Proofs.Exact
import Portcullis.Proofs.Ports
import Portcullis.Proofs.Storing

namespace Portcullis.Document

open Layered (layer value)
open Value (get?)

/-- Nothing is wrong with a list if nothing is wrong with its items, wherever these stand. -/
theorem flatMap_zipIdx_eq_nil_iff {β : Type} {f : Nat → β → List ShapeFault} {P : β → Prop}
    (h : ∀ i v, f i v = [] ↔ P v) {items : List β} :
    (items.zipIdx.flatMap fun x => f x.2 x.1) = [] ↔ ∀ v ∈ items, P v := by
  have hitems : items.zipIdx.map Prod.fst = items := List.zipIdx_map_fst 0 items
  simp only [List.flatMap_eq_nil_iff, h]
  constructor
  · intro hall v hv
    rw [← hitems] at hv
    obtain ⟨x, hx, rfl⟩ := List.mem_map.mp hv
    exact hall x hx
  · intro hall x hx
    exact hall x.1 (hitems ▸ List.mem_map_of_mem hx)

/-! ## Faults that are told -/

def Problem.found? : Problem → Option Value
  | .invalidName v | .invalidAction v | .invalidProtocol v => some v
  | _ => none

/-- What becomes of a fault: the reading stops if the value that it shows cannot be written. -/
def ShapeFault.told (f : ShapeFault) : ShapeFault :=
  if f.problem.found?.all Value.writable then f else ⟨f.path, .unwritable⟩

theorem told_of_writable {f : ShapeFault} (h : ∀ v, f.problem.found? = some v → v.writable = true) : f.told = f :=
  if_pos ((Option.all_eq_true _ _).mpr h)

theorem told_of_unwritable {f : ShapeFault} {v : Value} (hf : f.problem.found? = some v) (h : v.writable = false) :
    f.told = ⟨f.path, .unwritable⟩ :=
  if_neg (by simp [hf, h])

theorem isAlpha_toLower_of_isDigit {c : Char} (hc : c.isDigit = true) : c.toLower.isAlpha = false := by
  have hten : ∀ d < 10, (Nat.digitChar d).toLower.isAlpha = false := by decide
  have hval : 48 ≤ c.toNat ∧ c.toNat ≤ 57 := Char.isDigit_iff_toNat.mp hc
  rw [← Number.digitChar_of_isDigit hc]
  exact hten _ (by omega)

/-- A text that cannot be written has a digit or a bracket, which is no letter. -/
theorem exists_sign_of_unwritable {v : Value} (h : v.writable = false) :
    ∃ c ∈ v.plain.toList, c.toLower.isAlpha = false := by
  cases v with
  | int n =>
    cases n with
    | ofNat m =>
      obtain ⟨c, hc⟩ := List.exists_mem_of_ne_nil _ (Nat.toDigits_ne_nil (n := m) (b := 10))
      refine ⟨c, ?_, isAlpha_toLower_of_isDigit (Number.isDigit_of_mem_toDigits hc)⟩
      rw [← PortRange.toList_toString] at hc
      exact hc
    | negSucc m => exact ⟨'-', by simp [Value.plain, Value.shown, Int.repr], by decide⟩
  | list vs => exact ⟨'[', by simp [Value.plain, Value.shown], by decide⟩
  | pair v w => exact ⟨'(', by simp [Value.plain, Value.shown], by decide⟩
  | map es => exact ⟨'{', by simp [Value.plain, Value.shown], by decide⟩
  | set vs =>
    cases vs with
    | nil => cases h
    | cons v vs => exact ⟨'{', by simp [Value.plain, Value.shown], by decide⟩
  | _ => cases h

/-- A value that is written as a word can be written. -/
theorem writable_of_wordOf {v : Value} {s : String} (hs : s.toList.all Char.isAlpha = true) (h : s = wordOf v) :
    v.writable = true := Bool.of_not_eq_false fun hv => by
  obtain ⟨c, hc, hsign⟩ := exists_sign_of_unwritable hv
  have hmem : c.toLower ∈ s.toList := by
    rw [h, wordOf, String.toList_ofList]
    exact List.mem_map_of_mem hc
  rw [List.all_eq_true.mp hs _ hmem] at hsign
  cases hsign

variable {α : Type} [Layered α]

/-! ## Lists of texts -/

def IsText (v : α) : Prop := ∃ s, layer v = .scalar (.text s)

def itemFaults (path : Path) (i : Nat) (v : α) : List ShapeFault :=
  match layer v with
  | .scalar (.text _) => []
  | l => [⟨path ++ [.item i], .notA "string" l.typeName⟩]

def textListFaults (path : Path) (v : α) : List ShapeFault :=
  match layer v with
  | .list items => items.zipIdx.flatMap fun x => itemFaults path x.2 x.1
  | l => [⟨path, .notA "list" l.typeName⟩]

def IsToken (v : α) (t : Value) : Prop := ∃ s, layer v = .scalar (.text s) ∧ t = .text s

def Tokens (v : α) (ts : List Value) : Prop := ∃ items, layer v = .list items ∧ List.Forall₂ IsToken items ts

def IsTextList (v : α) : Prop := ∃ items, layer v = .list items ∧ ∀ item ∈ items, IsText item

theorem exact_textItems (path : Path) (n : Nat) (items : List α) :
    Exact (textItems path n items) (((items.zipIdx n).flatMap fun x => itemFaults path x.2 x.1).map ShapeFault.told)
      (List.Forall₂ IsToken items) := by
  induction items generalizing n with
  | nil => exact ⟨rfl, .nil⟩
  | cons v items ih =>
    rw [List.zipIdx_cons, List.flatMap_cons, List.map_append]
    cases hv : layer v with
    | scalar x =>
      cases x with
      | text s =>
        simp only [textItems, itemFaults, hv]
        exact (ih (n + 1)).bind_pure fun ts hts => .cons ⟨s, hv, rfl⟩ hts
      | _ =>
        simp only [textItems, itemFaults, hv]
        rfl
    | _ =>
      simp only [textItems, itemFaults, hv]
      rfl

theorem exact_textList (path : Path) (v : α) :
    Exact (textList path v) ((textListFaults path v).map ShapeFault.told) (Tokens v) := by
  cases hv : layer v with
  | list items =>
    simp only [textList, textListFaults, hv]
    exact (exact_textItems path 0 items).mono fun ts hts => ⟨items, hv, hts⟩
  | _ =>
    simp only [textList, textListFaults, hv]
    rfl

/-! ## Tables of names -/

def IsNull (v : α) : Prop := layer v = .scalar .null

def entryFaults (path : Path) (e : Value × α) : List ShapeFault :=
  match e.1 with
  | .text name => if name = "" then [⟨path, .invalidName (.text name)⟩] else textListFaults (path ++ [.field name]) e.2
  | k => [⟨path, .invalidName k⟩]

def nameTableFaults (path : Path) : Option α → List ShapeFault
  | none => []
  | some v => match layer v with
    | .scalar .null => []
    | .map entries => entries.flatMap (entryFaults path)
    | l => [⟨path, .notA "mapping" l.typeName⟩]

def IsRow (e : Value × α) (row : String × List Value) : Prop := e.1 = .text row.1 ∧ Tokens e.2 row.2

def Distinct (entries : List (Value × α)) : Prop := entries.Pairwise fun e d => Value.sameKey e.1 d.1 = false

inductive TableOf : Option α → NameTable → Prop
  | missing : TableOf none ∅
  | null {v : α} (h : IsNull v) : TableOf (some v) ∅
  | rows {v : α} {entries : List (Value × α)} {rows : List (String × List Value)} {t : NameTable}
      (h : layer v = .map entries) (hrows : List.Forall₂ IsRow entries rows) (ht : t = Table.ofList rows)
      (horder : Distinct entries → t.toList = rows) : TableOf (some v) t

theorem keys_of_rows {entries : List (Value × α)} {rows : List (String × List Value)}
    (hrows : List.Forall₂ IsRow entries rows) : entries.map Prod.fst = rows.map fun row => .text row.1 := by
  induction hrows with
  | nil => rfl
  | cons hrow _ ih => rw [List.map_cons, List.map_cons, hrow.1, ih]

theorem nodup_of_distinct {entries : List (Value × α)} {rows : List (String × List Value)} (h : Distinct entries)
    (hrows : List.Forall₂ IsRow entries rows) : (rows.map Prod.fst).Nodup := by
  have hkeys : (entries.map Prod.fst).Pairwise fun k l => Value.sameKey k l = false := List.pairwise_map.mpr h
  rw [keys_of_rows hrows, List.pairwise_map] at hkeys
  exact List.pairwise_map.mpr (hkeys.imp fun hapart hsame => by simp [Value.sameKey, hsame] at hapart)

theorem exact_nameEntries (path : Path) (entries : List (Value × α)) :
    Exact (nameEntries path entries) ((entries.flatMap (entryFaults path)).map ShapeFault.told)
      (List.Forall₂ IsRow entries) := by
  have hname : ∀ k : Value, (⟨path, if k.writable then .invalidName k else .unwritable⟩ : ShapeFault) =
      ShapeFault.told ⟨path, .invalidName k⟩ := fun k => by
    cases hk : k.writable <;> simp [ShapeFault.told, Problem.found?, hk]
  induction entries with
  | nil => exact ⟨rfl, .nil⟩
  | cons e entries ih =>
    obtain ⟨k, v⟩ := e
    rw [List.flatMap_cons, List.map_append]
    cases k with
    | text name =>
      by_cases hname : name = ""
      · simp only [nameEntries, entryFaults, hname, if_true]
        rfl
      · simp only [nameEntries, entryFaults, hname, if_false]
        exact (exact_textList _ v).bind fun ts hts => ih.bind_pure fun rows hrows => .cons ⟨rfl, hts⟩ hrows
    | _ => exact congrArg some (hname _).symm

theorem exact_nameTable (path : Path) (o : Option α) :
    Exact (nameTable path o) ((nameTableFaults path o).map ShapeFault.told) (TableOf o) := by
  cases o with
  | none => exact ⟨rfl, .missing⟩
  | some v =>
    cases hv : layer v with
    | scalar x =>
      cases x with
      | null =>
        simp only [nameTable, nameTableFaults, hv]
        exact ⟨rfl, .null hv⟩
      | _ =>
        simp only [nameTable, nameTableFaults, hv]
        rfl
    | map entries =>
      simp only [nameTable, nameTableFaults, hv]
      refine (exact_nameEntries path entries).map fun rows hrows => .rows hv hrows rfl fun h => ?_
      exact Table.toList_ofList (nodup_of_distinct h hrows)
    | _ =>
      simp only [nameTable, nameTableFaults, hv]
      rfl

/-! ## Rules -/

def wordFaults {ω : Type} (words : List ω) (text : ω → String) (v : Value) (f : ShapeFault) : List ShapeFault :=
  if ∃ w ∈ words, text w = wordOf v then [] else [f]

def actionFaults (path : Path) (v : Option Value) : List ShapeFault :=
  let v := v.getD .null
  wordFaults Action.all Action.text v ⟨path ++ [.field "action"], .invalidAction v⟩

def protocolFaults (path : Path) (v : Option Value) : List ShapeFault :=
  match v.filter Value.isTruthy with
  | none => []
  | some v => wordFaults Protocol.every Protocol.text v ⟨path ++ [.field "proto"], .invalidProtocol v⟩

def sideFaults (path : Path) (name : String) (v : Option α) : List ShapeFault :=
  v.elim [] (textListFaults (path ++ [.field name]))

def ruleFaults (index : Nat) (v : α) : List ShapeFault :=
  let path : Path := [.field "acls", .item index]
  match layer v with
  | .map entries =>
    actionFaults path ((get? "action" entries).map value) ++ (protocolFaults path ((get? "proto" entries).map value) ++
      (sideFaults path "src" (get? "src" entries) ++ sideFaults path "dst" (get? "dst" entries)))
  | l => [⟨path, .notA "mapping" l.typeName⟩]

def rulesFaults : Option α → List ShapeFault
  | none => []
  | some v => match layer v with
    | .scalar .null => []
    | .list items => items.zipIdx.flatMap fun x => ruleFaults x.2 x.1
    | l => [⟨[.field "acls"], .notA "list" l.typeName⟩]

inductive ProtocolOf (v : Option Value) : Option Protocol → Prop
  | unset (h : v.filter Value.isTruthy = none) : ProtocolOf v none
  | word {w : Value} {p : Protocol} (h : v.filter Value.isTruthy = some w) (hword : p.text = wordOf w) :
      ProtocolOf v (some p)

inductive SideOf : Option α → List Value → Prop
  | missing : SideOf none []
  | tokens {v : α} {ts : List Value} (h : Tokens v ts) : SideOf (some v) ts

structure FieldsOf (entries : List (Value × α)) (r : AccessRule) : Prop where
  action : r.action.text = wordOf (((get? "action" entries).map value).getD .null)
  protocol : ProtocolOf ((get? "proto" entries).map value) r.protocol
  sources : SideOf (get? "src" entries) r.sources
  destinations : SideOf (get? "dst" entries) r.destinations

def RuleOf (x : α × Nat) (r : AccessRule) : Prop :=
  r.index = x.2 ∧ ∃ entries, layer x.1 = .map entries ∧ FieldsOf entries r

inductive RulesOf : Option α → List AccessRule → Prop
  | missing : RulesOf none []
  | null {v : α} (h : IsNull v) : RulesOf (some v) []
  | items {v : α} {items : List α} {rs : List AccessRule} (h : layer v = .list items)
      (hrules : List.Forall₂ RuleOf items.zipIdx rs) : RulesOf (some v) rs

/-- What is read as one of some words can be written, so the words come first. -/
theorem exact_word {ω : Type} (words : List ω) (text : ω → String) (hwords : ∀ w, (text w).toList.all Char.isAlpha = true)
    (path : Path) {invalid : Value → Problem} (hinvalid : ∀ v, (invalid v).found? = some v) (v : Value) :
    Exact (word path (fun s => words.find? fun w => text w = s) invalid v)
      ((wordFaults words text v ⟨path, invalid v⟩).map ShapeFault.told) (fun w => text w = wordOf v) := by
  unfold word wordFaults
  by_cases hv : v.writable = true
  · simp only [hv, if_true]
    cases hfound : words.find? fun w => text w = wordOf v with
    | none =>
      have hno : ¬ ∃ w ∈ words, text w = wordOf v := by simpa using hfound
      have htold : ShapeFault.told ⟨path, invalid v⟩ = ⟨path, invalid v⟩ :=
        told_of_writable fun w hw => Option.some.inj ((hinvalid v).symm.trans hw) ▸ hv
      rw [if_neg hno]
      exact congrArg some htold
    | some w =>
      have hw : text w = wordOf v := by simpa using List.find?_some hfound
      rw [if_pos ⟨w, List.mem_of_find?_eq_some hfound, hw⟩]
      exact ⟨rfl, hw⟩
  · have hno : ¬ ∃ w ∈ words, text w = wordOf v := fun ⟨w, _, hw⟩ => hv (writable_of_wordOf (hwords w) hw)
    rw [if_neg hv, if_neg hno]
    exact congrArg some (told_of_unwritable (hinvalid v) (Bool.eq_false_iff.mpr hv))

theorem exact_action (path : Path) (v : Option Value) :
    Exact (action path v) ((actionFaults path v).map ShapeFault.told) fun a => a.text = wordOf (v.getD .null) :=
  exact_word Action.all Action.text (fun a => by cases a <;> decide) _ (fun _ => rfl) (v.getD .null)

theorem exact_protocol (path : Path) (v : Option Value) :
    Exact (protocol path v) ((protocolFaults path v).map ShapeFault.told) (ProtocolOf v) := by
  cases h : v.filter Value.isTruthy with
  | none =>
    simp only [protocol, protocolFaults, h]
    exact ⟨rfl, .unset h⟩
  | some w =>
    simp only [protocol, protocolFaults, h]
    exact (exact_word Protocol.every Protocol.text (fun p => by cases p <;> decide) _ (fun _ => rfl) w).map
      fun p hp => .word h hp

theorem exact_side (path : Path) (name : String) (v : Option α) :
    Exact (side path name v) ((sideFaults path name v).map ShapeFault.told) (SideOf v) := by
  cases v with
  | none => exact ⟨rfl, .missing⟩
  | some v => exact (exact_textList _ v).mono fun ts hts => .tokens hts

theorem exact_rule (index : Nat) (v : α) :
    Exact (rule index v) ((ruleFaults index v).map ShapeFault.told) (RuleOf (v, index)) := by
  cases hv : layer v with
  | map entries =>
    simp only [rule, ruleFaults, hv, List.map_append]
    refine (exact_action _ _).bind fun a ha => (exact_protocol _ _).bind fun p hp =>
      (exact_side _ "src" _).bind fun ss hs => (exact_side _ "dst" _).bind_pure fun ds hd => ?_
    exact ⟨rfl, entries, hv, ha, hp, hs, hd⟩
  | _ =>
    simp only [rule, ruleFaults, hv]
    rfl

theorem exact_rulesFrom (n : Nat) (items : List α) :
    Exact (rulesFrom n items) (((items.zipIdx n).flatMap fun x => ruleFaults x.2 x.1).map ShapeFault.told)
      (List.Forall₂ RuleOf (items.zipIdx n)) := by
  induction items generalizing n with
  | nil => exact ⟨rfl, .nil⟩
  | cons v items ih =>
    rw [List.zipIdx_cons, List.flatMap_cons, List.map_append]
    exact (exact_rule n v).bind fun r hr => (ih (n + 1)).bind_pure fun rs hrs => .cons hr hrs

theorem exact_rulesOf (o : Option α) : Exact (rulesOf o) ((rulesFaults o).map ShapeFault.told) (RulesOf o) := by
  cases o with
  | none => exact ⟨rfl, .missing⟩
  | some v =>
    cases hv : layer v with
    | scalar x =>
      cases x with
      | null =>
        simp only [rulesOf, rulesFaults, hv]
        exact ⟨rfl, .null hv⟩
      | _ =>
        simp only [rulesOf, rulesFaults, hv]
        rfl
    | list items =>
      simp only [rulesOf, rulesFaults, hv]
      exact (exact_rulesFrom 0 items).mono fun rs hrs => .items hv hrs
    | _ =>
      simp only [rulesOf, rulesFaults, hv]
      rfl

/-! ## Documents -/

/-- Everything that is wrong with a value that is to be a document, in order. -/
def faults (v : α) : List ShapeFault :=
  match layer v with
  | .map entries => nameTableFaults [.field "groups"] (get? "groups" entries) ++
      (nameTableFaults [.field "tagOwners"] (get? "tagOwners" entries) ++ rulesFaults (get? "acls" entries))
  | _ => [⟨[], .rootNotMap⟩]

structure SectionsOf (entries : List (Value × α)) (d : Document) : Prop where
  groups : TableOf (get? "groups" entries) d.groups
  tagOwners : TableOf (get? "tagOwners" entries) d.tagOwners
  rules : RulesOf (get? "acls" entries) d.rules

def Reads (v : α) (d : Document) : Prop := ∃ entries, layer v = .map entries ∧ SectionsOf entries d

theorem exact_ofValue (v : α) : Exact (ofValue v).2 ((faults v).map ShapeFault.told) (Reads v) := by
  cases hv : layer v with
  | map entries =>
    simp only [ofValue, faults, hv, List.map_append]
    refine (exact_nameTable _ _).bind fun groups hgroups => (exact_nameTable _ _).bind fun tagOwners htags =>
      (exact_rulesOf _).bind_pure fun rules hrules => ?_
    exact ⟨entries, hv, hgroups, htags, hrules⟩
  | _ =>
    simp only [ofValue, faults, hv]
    rfl

/-! ## Faults that are not told -/

def Reported (fs : List ShapeFault) : Prop := ∀ f ∈ fs, f.problem.isReported = true

theorem Reported.nil : Reported [] := nofun

theorem Reported.one {f : ShapeFault} (h : f.problem.isReported = true) : Reported [f] :=
  fun _ hg => List.mem_singleton.mp hg ▸ h

theorem Reported.append {fs gs : List ShapeFault} (hf : Reported fs) (hg : Reported gs) : Reported (fs ++ gs) :=
  List.forall_mem_append.mpr ⟨hf, hg⟩

theorem Reported.flatMap {β : Type} {xs : List β} {f : β → List ShapeFault} (h : ∀ x, Reported (f x)) :
    Reported (xs.flatMap f) := fun g hg => by
  obtain ⟨x, -, hx⟩ := List.mem_flatMap.mp hg
  exact h x g hx

theorem reported_textListFaults (path : Path) (v : α) : Reported (textListFaults path v) := by
  unfold textListFaults
  split
  · refine .flatMap fun x => ?_
    unfold itemFaults
    split
    · exact .nil
    · exact .one rfl
  · exact .one rfl

theorem reported_nameTableFaults (path : Path) (o : Option α) : Reported (nameTableFaults path o) := by
  unfold nameTableFaults
  split
  · exact .nil
  split
  · exact .nil
  · refine .flatMap fun e => ?_
    unfold entryFaults
    split
    · split
      · exact .one rfl
      · exact reported_textListFaults _ _
    · exact .one rfl
  · exact .one rfl

theorem reported_wordFaults {ω : Type} (words : List ω) (text : ω → String) (v : Value) {f : ShapeFault}
    (h : f.problem.isReported = true) : Reported (wordFaults words text v f) := by
  unfold wordFaults
  split
  · exact .nil
  · exact .one h

theorem reported_sideFaults (path : Path) (name : String) (o : Option α) : Reported (sideFaults path name o) := by
  cases o with
  | none => exact .nil
  | some v => exact reported_textListFaults _ v

theorem reported_ruleFaults (index : Nat) (v : α) : Reported (ruleFaults index v) := by
  unfold ruleFaults
  split
  · refine (reported_wordFaults _ _ _ rfl).append (.append ?_ (.append ?_ ?_))
    · unfold protocolFaults
      split
      · exact .nil
      · exact reported_wordFaults _ _ _ rfl
    · exact reported_sideFaults _ _ _
    · exact reported_sideFaults _ _ _
  · exact .one rfl

theorem reported_faults (v : α) : Reported (faults v) := by
  unfold faults
  split
  · refine (reported_nameTableFaults _ _).append ((reported_nameTableFaults _ _).append ?_)
    unfold rulesFaults
    split
    · exact .nil
    split
    · exact .nil
    · exact .flatMap fun x => reported_ruleFaults _ _
    · exact .one rfl
  · exact .one rfl

/-- A fault is not told if and only if the value that it shows cannot be written. -/
theorem untold_iff {f : ShapeFault} (h : f.problem.isReported = true) :
    f.told.problem.isReported = false ↔ ∃ found, f.problem.found? = some found ∧ found.writable = false := by
  constructor
  · intro huntold
    by_contra hno
    rw [told_of_writable fun v hv => Bool.of_not_eq_false fun hlong => hno ⟨v, hv, hlong⟩, h] at huntold
    cases huntold
  · rintro ⟨found, hfound, hlong⟩
    rw [told_of_unwritable hfound hlong]
    rfl

/-! ## The shape of a document -/

def IsNameTable (v : α) : Prop :=
  ∃ entries, layer v = .map entries ∧ ∀ e ∈ entries, (∃ name, e.1 = .text name ∧ name ≠ "") ∧ IsTextList e.2

def IsRule (v : α) : Prop :=
  ∃ entries, layer v = .map entries ∧
    (∃ a : Action, a.text = wordOf (((get? "action" entries).map value).getD .null)) ∧
    (∀ p, get? "proto" entries = some p → (value p).isTruthy = true → ∃ q : Protocol, q.text = wordOf (value p)) ∧
    ∀ name ∈ ["src", "dst"], ∀ side, get? name entries = some side → IsTextList side

/-- The values that are documents. -/
def WellShaped (v : α) : Prop :=
  ∃ entries, layer v = .map entries ∧
    (∀ name ∈ ["groups", "tagOwners"], ∀ table, get? name entries = some table → IsNull table ∨ IsNameTable table) ∧
    ∀ rules, get? "acls" entries = some rules →
      IsNull rules ∨ ∃ items, layer rules = .list items ∧ ∀ item ∈ items, IsRule item

theorem itemFaults_eq_nil_iff {path : Path} {i : Nat} {v : α} : itemFaults path i v = [] ↔ IsText v := by
  unfold itemFaults IsText
  split
  · rename_i s h
    simp [h]
  · rename_i h
    simp only [List.cons_ne_nil, false_iff, not_exists]
    exact h

theorem textListFaults_eq_nil_iff {path : Path} {v : α} : textListFaults path v = [] ↔ IsTextList v := by
  unfold textListFaults IsTextList
  cases hv : layer v with
  | list items =>
    have hitems : ∀ i (v : α), itemFaults path i v = [] ↔ IsText v := fun _ _ => itemFaults_eq_nil_iff
    simp only [flatMap_zipIdx_eq_nil_iff hitems, Layer.list.injEq, exists_eq_left']
  | _ => simp

theorem entryFaults_eq_nil_iff {path : Path} {e : Value × α} :
    entryFaults path e = [] ↔ (∃ name, e.1 = .text name ∧ name ≠ "") ∧ IsTextList e.2 := by
  unfold entryFaults
  split
  · rename_i name h
    by_cases hname : name = ""
    · simp [h, hname]
    · simp [h, hname, textListFaults_eq_nil_iff]
  · rename_i h
    simp only [List.cons_ne_nil, false_iff, not_and]
    rintro ⟨name, hname, -⟩
    exact absurd hname (h name)

theorem nameTableFaults_eq_nil_iff {path : Path} {o : Option α} :
    nameTableFaults path o = [] ↔ ∀ v, o = some v → IsNull v ∨ IsNameTable v := by
  cases o with
  | none => simp [nameTableFaults]
  | some v =>
    simp only [nameTableFaults, Option.some.injEq, forall_eq']
    unfold IsNull IsNameTable
    cases hv : layer v with
    | scalar x => cases x <;> simp
    | map entries => simp [entryFaults_eq_nil_iff]
    | _ => simp

theorem wordFaults_eq_nil_iff {ω : Type} {words : List ω} {text : ω → String} (hall : ∀ w, w ∈ words) {v : Value}
    {f : ShapeFault} : wordFaults words text v f = [] ↔ ∃ w, text w = wordOf v := by
  simp [wordFaults, hall]

theorem protocolFaults_eq_nil_iff {path : Path} {v : Option Value} : protocolFaults path v = [] ↔
    ∀ w, v = some w → w.isTruthy = true → ∃ p : Protocol, p.text = wordOf w := by
  have hall : ∀ p, p ∈ Protocol.every := fun p => by cases p <;> decide
  unfold protocolFaults
  split
  · rename_i h
    simp only [Option.filter_eq_none_iff] at h
    exact iff_of_true rfl fun w hw hset => absurd hset (h w hw)
  · rename_i w h
    obtain ⟨rfl, hset⟩ := Option.filter_eq_some_iff.mp h
    rw [wordFaults_eq_nil_iff hall]
    exact ⟨fun hword v hv _ => Option.some.inj hv ▸ hword, fun h => h w rfl hset⟩

theorem sideFaults_eq_nil_iff {path : Path} {name : String} {o : Option α} :
    sideFaults path name o = [] ↔ ∀ v, o = some v → IsTextList v := by
  cases o with
  | none => simp [sideFaults]
  | some v => simp [sideFaults, textListFaults_eq_nil_iff]

theorem ruleFaults_eq_nil_iff {index : Nat} {v : α} : ruleFaults index v = [] ↔ IsRule v := by
  have hall : ∀ a, a ∈ Action.all := fun a => by cases a <;> decide
  unfold ruleFaults IsRule
  cases hv : layer v with
  | map entries =>
    simp [actionFaults, wordFaults_eq_nil_iff hall, protocolFaults_eq_nil_iff, sideFaults_eq_nil_iff]
  | _ => simp

theorem rulesFaults_eq_nil_iff {o : Option α} : rulesFaults o = [] ↔
    ∀ v, o = some v → IsNull v ∨ ∃ items, layer v = .list items ∧ ∀ item ∈ items, IsRule item := by
  cases o with
  | none => simp [rulesFaults]
  | some v =>
    simp only [rulesFaults, Option.some.injEq, forall_eq']
    unfold IsNull
    cases hv : layer v with
    | scalar x => cases x <;> simp
    | list items =>
      have hitems : ∀ i (v : α), ruleFaults i v = [] ↔ IsRule v := fun _ _ => ruleFaults_eq_nil_iff
      simp only [flatMap_zipIdx_eq_nil_iff hitems, Layer.list.injEq, exists_eq_left', reduceCtorEq, false_or]
    | _ => simp

theorem faults_eq_nil_iff {v : α} : faults v = [] ↔ WellShaped v := by
  unfold faults WellShaped
  cases hv : layer v with
  | map entries => simp [nameTableFaults_eq_nil_iff, rulesFaults_eq_nil_iff, and_assoc]
  | _ => simp

/-! ## Parts that do not count -/

def Agree (names : List String) (es fs : List (Value × α)) : Prop := ∀ name ∈ names, get? name es = get? name fs

def RuleAlike (v w : α) : Prop :=
  ∃ es fs, layer v = .map es ∧ layer w = .map fs ∧ Agree ["action", "proto", "src", "dst"] es fs

inductive RulesAlike : Option α → Option α → Prop
  | same (o : Option α) : RulesAlike o o
  | items {v w : α} {vs ws : List α} (hv : layer v = .list vs) (hw : layer w = .list ws)
      (h : List.Forall₂ RuleAlike vs ws) : RulesAlike (some v) (some w)

/-- Maps with the same tables and with rules of the same fields. -/
def Alike (v w : α) : Prop :=
  ∃ es fs, layer v = .map es ∧ layer w = .map fs ∧ Agree ["groups", "tagOwners"] es fs ∧
    RulesAlike (get? "acls" es) (get? "acls" fs)

theorem rule_congr {v w : α} (h : RuleAlike v w) (index : Nat) : rule index v = rule index w := by
  obtain ⟨es, fs, hv, hw, hagree⟩ := h
  simp only [rule, hv, hw, hagree "action" (by simp), hagree "proto" (by simp), hagree "src" (by simp),
    hagree "dst" (by simp)]

theorem rulesFrom_congr {vs ws : List α} (h : List.Forall₂ RuleAlike vs ws) (n : Nat) :
    rulesFrom n vs = rulesFrom n ws := by
  induction h generalizing n with
  | nil => rfl
  | cons hrule _ ih => simp only [rulesFrom, rule_congr hrule, ih]

theorem rulesOf_congr {o p : Option α} (h : RulesAlike o p) : rulesOf o = rulesOf p := by
  cases h with
  | same o => rfl
  | items hv hw h => simp only [rulesOf, hv, hw, rulesFrom_congr h]

theorem ofValue_congr {v w : α} (h : Alike v w) : (ofValue v).2 = (ofValue w).2 := by
  obtain ⟨es, fs, hv, hw, hagree, hrules⟩ := h
  simp only [ofValue, hv, hw, ofEntries, hagree "groups" (by simp), hagree "tagOwners" (by simp), rulesOf_congr hrules]

/-- A value is refused with the first of its faults; nothing is told of it if it would show a value
    whose text cannot be written. The values without faults have the shape of a document and are
    read as what they hold, whatever else they hold. -/
theorem document_of_value (v : α) :
    (∀ f, (ofValue v).2 = .error f ↔ ∃ g, (faults v).head? = some g ∧ g.told = f) ∧
    ((∃ f, (ofValue v).2 = .error f ∧ f.problem.isReported = false) ↔
      ∃ g found, (faults v).head? = some g ∧ g.problem.found? = some found ∧ found.writable = false) ∧
    ((∃ d, (ofValue v).2 = .ok d) ↔ WellShaped v) ∧
    (∀ d, (ofValue v).2 = .ok d → Reads v d) ∧
    ∀ w, Alike v w → (ofValue v).2 = (ofValue w).2 := by
  have hexact := exact_ofValue v
  have hfirst : ∀ f, (ofValue v).2 = .error f ↔ ∃ g, (faults v).head? = some g ∧ g.told = f := fun f => by
    rw [hexact.error_iff, List.head?_map, Option.map_eq_some_iff]
  refine ⟨hfirst, ?_, ?_, fun d hd => hexact.of_ok hd, fun w => ofValue_congr⟩
  · simp only [hfirst]
    constructor
    · rintro ⟨_, ⟨g, hg, rfl⟩, huntold⟩
      obtain ⟨found, hfound, hlong⟩ := (untold_iff (reported_faults v g (List.mem_of_head? hg))).mp huntold
      exact ⟨g, found, hg, hfound, hlong⟩
    · rintro ⟨g, found, hg, hfound, hlong⟩
      exact ⟨_, ⟨g, hg, rfl⟩, (untold_iff (reported_faults v g (List.mem_of_head? hg))).mpr ⟨found, hfound, hlong⟩⟩
  · rw [hexact.ok_iff, List.map_eq_nil_iff, faults_eq_nil_iff]

def oneSided : Value :=
  .map [(.text "src", .list [.text "group:dev"]), (.text "proto", .int 0), (.text "action", .text "DROP")]

def small : Value :=
  .map [(.text "groups", .map [(.text "dev", .list [.text "ops", .text "web"])]), (.text "tagOwners", .null),
    (.text "acls", .list [oneSided])]

def smallNoted : Value :=
  .map [(.text "acls", .list [oneSided]), (.text "notes", .int 1), (.text "tagOwners", .null),
    (.text "groups", .map [(.text "dev", .list [.text "ops", .text "web"])])]

def broken : Value :=
  .map [(.text "acls", .list [oneSided, .map [(.text "action", .text "accept"), (.text "proto", .text "sctp")]]),
    (.text "tagOwners", .map [(.text "tag:a", .list [.text "x", .int 1]), (.text "", .null)])]

theorem wellShaped_small : WellShaped small := faults_eq_nil_iff.mp rfl

theorem document_of_small :
    (∃ d, (ofValue small).2 = .ok d ∧ Reads small d ∧ (ofValue smallNoted).2 = .ok d) ∧
    (ofValue broken).2 = .error ⟨[.field "tagOwners", .field "tag:a", .item 1], .notA "string" "int"⟩ := by
  obtain ⟨-, -, hshape, hreads, hsame⟩ := document_of_value small
  obtain ⟨d, hd⟩ := hshape.mpr wellShaped_small
  have halike : Alike small smallNoted := by
    refine ⟨_, _, rfl, rfl, ?_, .same _⟩
    simp only [Agree, List.forall_mem_cons]
    exact ⟨rfl, rfl, nofun⟩
  refine ⟨⟨d, hd, hreads d hd, (hsame _ halike).symm.trans hd⟩, ((document_of_value broken).1 _).mpr ⟨_, rfl, rfl⟩⟩

def actionOnly (v : Value) : Value := .map [(.text "acls", .list [.map [(.text "action", v)]])]

theorem untold_of_unwritable {v : Value} (h : v.writable = false) : ¬ WellShaped (actionOnly v) ∧
    ∃ f, (ofValue (actionOnly v)).2 = .error f ∧ f.problem.isReported = false := by
  have hno : ¬ ∃ a ∈ Action.all, a.text = wordOf v := by
    rintro ⟨a, -, ha⟩
    have hwritable := writable_of_wordOf (by cases a <;> decide) ha
    rw [h] at hwritable
    cases hwritable
  let fault : ShapeFault := ⟨[.field "acls", .item 0, .field "action"], .invalidAction v⟩
  have hfaults : faults (actionOnly v) = [fault] := by
    show wordFaults Action.all Action.text v fault ++ [] ++ [] = _
    rw [List.append_nil, List.append_nil, wordFaults, if_neg hno]
  refine ⟨fun hshape => ?_, _, ((exact_ofValue (actionOnly v)).error_iff _).mpr (by rw [hfaults]; rfl), ?_⟩
  · rw [← faults_eq_nil_iff, hfaults] at hshape
    cases hshape
  · exact (untold_iff rfl).mpr ⟨v, rfl, h⟩

/-- A number of 4817 digits is no action, and yet no fault is told of it. -/
theorem a_long_action_is_not_told : ¬ WellShaped (actionOnly (.int (16 ^ 4000 - 1))) ∧
    ∃ f, (ofValue (actionOnly (.int (16 ^ 4000 - 1)))).2 = .error f ∧ f.problem.isReported = false :=
  untold_of_unwritable (Number.not_isWritable_of_le (by decide +kernel))

end Portcullis.Document
