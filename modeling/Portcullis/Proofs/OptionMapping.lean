/-
  Portcullis.Proofs.OptionMapping — which mappings are options, and how the others fail.

  Each entry of a mapping is taken by itself: its key names an option, its value is converted
  to what this option holds (`converted`). So a mapping gives options if and only if every
  entry can be taken, and then each option has the converted value of its entry or its default
  (`Given`), in whatever order the entries stand; otherwise the first entry that cannot be
  taken decides the error (`exact_setAll`).
  - Not every error is about an option and its value (`Fault.Reported`). A whole number is asked
    of any value, and what has none, or is infinite, fails as the conversion fails; so does what
    has to be written and has too many digits (`fault?_unreported_iff`, `a_list_is_no_number`).
  - `options_of_mapping`: all of this about one mapping.
  - `reported_of_ofEnv`: texts always fail as they should.
-/

import Portcullis.Options
import Portcullis.Proofs.Entries
import Portcullis.Proofs.Exact
import Portcullis.Proofs.Numeral

namespace Portcullis

namespace OptionName

def Carrier : OptionName → Type
  | .expansionDepth => Option Nat
  | .defaultProtocol => Protocol
  | .bidirectional => Bool
  | .ruleDebug => Bool
  | .debugRule => Int
  | .yamlIndent => Int
  | .typePrefix => String
  | .networkRef => Option String

theorem text_injective {n n' : OptionName} (h : n.text = n'.text) : n = n' := by
  cases n <;> cases n' <;> first | rfl | exact absurd h (by decide)

theorem ofKey?_eq_some_iff {k : Value} {n : OptionName} : ofKey? k = some n ↔ k = .text n.text := by
  constructor
  · intro h
    cases k with
    | text s =>
      have htext : decide (n.text = s) = true := List.find?_some (p := fun o => decide (text o = s)) h
      rw [of_decide_eq_true htext]
    | _ => cases h
  · rintro rfl
    cases n <;> decide

end OptionName

namespace Options

/-! ## One option -/

def value (o : Options) : (n : OptionName) → n.Carrier
  | .expansionDepth => o.expansionDepth
  | .defaultProtocol => o.defaultProtocol
  | .bidirectional => o.bidirectional
  | .ruleDebug => o.ruleDebug
  | .debugRule => o.debugRule
  | .yamlIndent => o.yamlIndent
  | .typePrefix => o.typePrefix
  | .networkRef => o.networkRef

def put (o : Options) : (n : OptionName) → n.Carrier → Options
  | .expansionDepth, x => { o with expansionDepth := x }
  | .defaultProtocol, x => { o with defaultProtocol := x }
  | .bidirectional, x => { o with bidirectional := x }
  | .ruleDebug, x => { o with ruleDebug := x }
  | .debugRule, x => { o with debugRule := x }
  | .yamlIndent, x => { o with yamlIndent := x }
  | .typePrefix, x => { o with typePrefix := x }
  | .networkRef, x => { o with networkRef := x }

def converted : (n : OptionName) → Value → Except Fault n.Carrier
  | .expansionDepth, v => toDepth v
  | .defaultProtocol, v => toProtocol v
  | .bidirectional, v => .ok (toFlag v)
  | .ruleDebug, v => .ok (toFlag v)
  | .debugRule, v => toWhole .debugRule v
  | .yamlIndent, v => toWhole .yamlIndent v
  | .typePrefix, v => toText v
  | .networkRef, v => toOptionalText v

theorem set_eq (o : Options) (n : OptionName) (v : Value) : o.set n v = (converted n v).map (o.put n) := by
  cases n <;> rfl

@[simp] theorem value_put_self (o : Options) (n : OptionName) (x : n.Carrier) : (o.put n x).value n = x := by
  cases n <;> rfl

theorem value_put_of_ne (o : Options) {n n' : OptionName} (h : n' ≠ n) (x : n.Carrier) :
    (o.put n x).value n' = o.value n' := by
  cases n <;> cases n' <;> first | rfl | exact absurd rfl h

theorem ext_value {o p : Options} (h : ∀ n, o.value n = p.value n) : o = p := by
  cases o
  cases p
  simp only [mk.injEq]
  exact ⟨h .expansionDepth, h .defaultProtocol, h .bidirectional, h .ruleDebug, h .debugRule, h .yamlIndent,
    h .typePrefix, h .networkRef⟩

/-! ## All entries -/

def Taken (e : Value × Value) : Prop := ∃ n x, e.1 = .text n.text ∧ converted n e.2 = .ok x

def fault? (e : Value × Value) : Option Fault :=
  match OptionName.ofKey? e.1 with
  | none => some (showing e.1 (.unknown e.1))
  | some n => match converted n e.2 with
    | .error f => some f
    | .ok _ => none

theorem fault?_named (n : OptionName) (v : Value) (f : Fault) :
    fault? (.text n.text, v) = some f ↔ converted n v = .error f := by
  simp only [fault?, OptionName.ofKey?_eq_some_iff.mpr rfl]
  cases converted n v <;> simp

theorem fault?_eq_none_iff {e : Value × Value} : fault? e = none ↔ Taken e := by
  obtain ⟨k, v⟩ := e
  constructor
  · intro h
    simp only [fault?] at h
    cases hk : OptionName.ofKey? k with
    | none => rw [hk] at h; cases h
    | some n =>
      simp only [hk] at h
      cases hv : converted n v with
      | error f => rw [hv] at h; cases h
      | ok x => exact ⟨n, x, OptionName.ofKey?_eq_some_iff.mp hk, hv⟩
  · rintro ⟨n, x, hk, hv⟩
    simp only at hk hv
    simp only [fault?, OptionName.ofKey?_eq_some_iff.mpr hk, hv]

structure Given (base : Options) (es : List (Value × Value)) (o : Options) : Prop where
  known : ∀ e ∈ es, ∃ n : OptionName, e.1 = .text n.text
  named : ∀ n v, (.text n.text, v) ∈ es → converted n v = .ok (o.value n)
  other : ∀ n, (∀ v, (.text n.text, v) ∉ es) → o.value n = base.value n

variable {base o p : Options} {es es' : List (Value × Value)}

theorem Given.cons {n : OptionName} {v : Value} {x : n.Carrier} (hv : converted n v = .ok x)
    (hnew : ∀ w, (.text n.text, w) ∉ es) (h : Given (base.put n x) es o) : Given base ((.text n.text, v) :: es) o where
  known := List.forall_mem_cons.mpr ⟨⟨n, rfl⟩, h.known⟩
  named m w hw := by
    rcases List.mem_cons.mp hw with heq | hw
    · obtain ⟨hm, rfl⟩ := Prod.mk.inj heq
      cases OptionName.text_injective (Value.text.inj hm)
      rw [h.other n hnew, value_put_self]
      exact hv
    · exact h.named m w hw
  other m hm := by
    have hne : m ≠ n := fun heq => hm v (heq ▸ List.mem_cons_self)
    rw [h.other m fun w hw => hm w (List.mem_cons_of_mem _ hw), value_put_of_ne base hne]

/-- Entries are refused with the first reason, or each one of them counts. -/
theorem exact_setAll (base : Options) (h : Value.Apart es) :
    Exact (setAll base es) (es.filterMap fault?) (Given base es) := by
  induction es generalizing base with
  | nil => exact ⟨rfl, ⟨by simp, by simp, fun _ _ => rfl⟩⟩
  | cons e es ih =>
    obtain ⟨k, v⟩ := e
    simp only [setAll, fault?, List.filterMap_cons]
    cases hk : OptionName.ofKey? k with
    | none => rfl
    | some n =>
      cases OptionName.ofKey?_eq_some_iff.mp hk
      simp only [set_eq]
      cases hv : converted n v with
      | error f => rfl
      | ok x => exact (ih (base.put n x) h.of_cons).mono fun o ho => ho.cons hv h.not_mem_of_cons

/-- Entries leave no choice. -/
theorem Given.unique (ho : Given base es o) (hp : Given base es p) : o = p := by
  refine ext_value fun n => ?_
  by_cases hn : ∃ v, (.text n.text, v) ∈ es
  · obtain ⟨v, hv⟩ := hn
    exact Except.ok.inj ((ho.named n v hv).symm.trans (hp.named n v hv))
  · have hn := not_exists.mp hn
    rw [ho.other n hn, hp.other n hn]

theorem Given.taken (h : Given base es o) : ∀ e ∈ es, Taken e := fun e he => by
  obtain ⟨n, hn⟩ := h.known e he
  exact ⟨n, o.value n, hn, h.named n e.2 (hn ▸ he)⟩

/-- Where an entry stands does not count. -/
theorem Given.congr (h : ∀ e, e ∈ es ↔ e ∈ es') (ho : Given base es o) : Given base es' o where
  known e he := ho.known e ((h e).mpr he)
  named n v hv := ho.named n v ((h _).mpr hv)
  other n hn := ho.other n fun v hv => hn v ((h _).mp hv)

/-! ## Errors that say what is wrong -/

def Fault.Reported : Fault → Prop
  | .unknown _ => True
  | .misfit _ _ _ => True
  | .wrongType => False
  | .tooLarge => False
  | .unwritable => False

/-- Values that are a finite number or can be read as one, or fail to be read. -/
def Numeric : Value → Prop
  | .bool _ | .int _ | .text _ | .bytes _ => True
  | .float x => x.isInfinite = false
  | _ => False

/-- Values that an option cannot take, and of which it says nothing: it asks for a whole number
    that they do not have, or has to write one of too many digits. -/
def Unmeasured : OptionName → Value → Prop
  | .expansionDepth, v => (v ≠ .null ∧ ¬ Numeric v) ∨ (∃ n < 0, v = .int n) ∧ v.writable = false
  | .debugRule, v => ¬ Numeric v
  | .yamlIndent, v => ¬ Numeric v
  | .defaultProtocol, v => v.writable = false
  | .typePrefix, v => v.writable = false
  | .networkRef, v => v.writable = false
  | _, _ => False

/-- Entries of which nothing is said: the key is no option and cannot be written, or the value is
    of this kind. -/
def Untold (e : Value × Value) : Prop :=
  e.1.writable = false ∨ ∃ n, e.1 = .text (OptionName.text n) ∧ Unmeasured n e.2

theorem showing_unreported_iff {v : Value} {f : Fault} (h : f.Reported) :
    ¬ (showing v f).Reported ↔ v.writable = false := by
  unfold showing
  cases v.writable with
  | false => exact iff_of_true id rfl
  | true => exact iff_of_false (not_not_intro h) Bool.noConfusion

theorem reported_toNumeral {n : OptionName} {v : Value} {cs : List Char} {f : Fault} (h : toNumeral n v cs = .error f) :
    f.Reported := by
  unfold toNumeral at h
  split at h
  · cases h
  · cases h
    trivial

theorem toWhole_unreported_iff (n : OptionName) (v : Value) :
    (∃ f, toWhole n v = .error f ∧ ¬ f.Reported) ↔ ¬ Numeric v := by
  cases v with
  | float x => cases x <;> simp [toWhole, Number.Binary64.truncate?, Number.Binary64.isInfinite, Numeric, Fault.Reported]
  | text s => exact iff_of_false (fun ⟨f, hf, hno⟩ => hno (reported_toNumeral hf)) (not_not_intro trivial)
  | bytes bs => exact iff_of_false (fun ⟨f, hf, hno⟩ => hno (reported_toNumeral hf)) (not_not_intro trivial)
  | _ => simp [toWhole, Numeric, Fault.Reported]

/-- A value that has a whole number and cannot be written is a number. -/
theorem eq_int_of_unwritable {name : OptionName} {v : Value} {n : Int} (h : toWhole name v = .ok n)
    (hv : v.writable = false) : v = .int n := by
  cases v with
  | int m => rw [Except.ok.inj h]
  | list | pair | map | set => cases h
  | _ => cases hv

/-- A depth fails as the number fails, if it is not null; and a negative one has to be written. -/
theorem toDepth_unreported_iff (v : Value) : (∃ f, toDepth v = .error f ∧ ¬ f.Reported) ↔
    (v ≠ .null ∧ ¬ Numeric v) ∨ (∃ n < 0, v = .int n) ∧ v.writable = false := by
  unfold toDepth
  by_cases hfree : isUnlimited v = true
  · rw [if_pos hfree]
    cases v <;> simp_all [isUnlimited, Numeric]
  · rw [if_neg hfree]
    have hnull : v ≠ .null := fun h => hfree (h ▸ rfl)
    have hwhole := toWhole_unreported_iff .expansionDepth v
    rw [← hwhole, and_iff_right hnull]
    cases hn : toWhole .expansionDepth v with
    | error f =>
      have hint : ¬ ∃ n < 0, v = .int n := by
        rintro ⟨n, -, rfl⟩
        cases hn
      simp [hint]
    | ok n =>
      dsimp only
      by_cases hneg : n < 0
      · have hint : ((∃ m < 0, v = .int m) ∧ v.writable = false) ↔ v.writable = false :=
          and_iff_right_of_imp fun hv => ⟨n, hneg, eq_int_of_unwritable hn hv⟩
        rw [if_pos hneg, hint, ← showing_unreported_iff (f := .misfit .expansionDepth v (.negativeDepth n)) trivial]
        simp
      · have hint : ¬ ∃ m < 0, v = .int m := by
          rintro ⟨m, hm, rfl⟩
          exact hneg (Except.ok.inj hn ▸ hm)
        simp [hneg, hint]

theorem toText_unreported_iff (v : Value) : (∃ f, toText v = .error f ∧ ¬ f.Reported) ↔ v.writable = false := by
  unfold toText
  cases hv : v.writable <;> simp [Fault.Reported]

theorem toOptionalText_unreported_iff (v : Value) :
    (∃ f, toOptionalText v = .error f ∧ ¬ f.Reported) ↔ v.writable = false := by
  rw [← toText_unreported_iff]
  unfold toOptionalText
  split
  · simp [toText, Value.writable]
  · cases toText v <;> simp [Except.map]

theorem toProtocol_unreported_iff (v : Value) : (∃ f, toProtocol v = .error f ∧ ¬ f.Reported) ↔ v.writable = false := by
  have hshown := showing_unreported_iff (v := v) (f := .misfit .defaultProtocol v (.notAProtocol v)) trivial
  cases v with
  | text s =>
    simp only [toProtocol]
    cases Protocol.ofText? s <;> simp [showing, Value.writable, Fault.Reported]
  | _ => simpa [toProtocol] using hshown

theorem converted_unreported_iff (n : OptionName) (v : Value) :
    (∃ f, converted n v = .error f ∧ ¬ f.Reported) ↔ Unmeasured n v := by
  cases n with
  | expansionDepth => exact toDepth_unreported_iff v
  | debugRule => exact toWhole_unreported_iff .debugRule v
  | yamlIndent => exact toWhole_unreported_iff .yamlIndent v
  | defaultProtocol => exact toProtocol_unreported_iff v
  | typePrefix => exact toText_unreported_iff v
  | networkRef => exact toOptionalText_unreported_iff v
  | bidirectional | ruleDebug => simp [converted, Unmeasured]

/-- An entry fails as its conversion fails, or as its key does. -/
theorem fault?_unreported_iff (e : Value × Value) : (∃ f, fault? e = some f ∧ ¬ f.Reported) ↔ Untold e := by
  obtain ⟨k, v⟩ := e
  constructor
  · rintro ⟨f, hf, hno⟩
    cases hk : OptionName.ofKey? k with
    | none =>
      simp only [fault?, hk] at hf
      cases hf
      exact .inl ((showing_unreported_iff (f := .unknown k) trivial).mp hno)
    | some n =>
      cases OptionName.ofKey?_eq_some_iff.mp hk
      exact .inr ⟨n, rfl, (converted_unreported_iff n v).mp ⟨f, (fault?_named n v f).mp hf, hno⟩⟩
  · rintro (hk | ⟨n, rfl, hv⟩)
    · have hnone : OptionName.ofKey? k = none := by
        cases k with
        | text s => cases hk
        | _ => rfl
      refine ⟨showing k (.unknown k), by simp only [fault?, hnone], ?_⟩
      exact (showing_unreported_iff (f := .unknown k) trivial).mpr hk
    · obtain ⟨f, hf, hno⟩ := (converted_unreported_iff n v).mpr hv
      exact ⟨f, (fault?_named n v f).mpr hf, hno⟩

/-! ## The whole mapping -/

theorem ofMapping_eq_ok_iff (entries : List (Value × Value)) (o : Options) :
    ofMapping entries = .ok o ↔ Given {} (Value.mapOf entries) o := by
  have hexact := exact_setAll {} (Value.apart_mapOf entries)
  constructor
  · exact hexact.of_ok
  · intro h
    obtain ⟨p, hp⟩ := hexact.ok_iff_forall.mpr fun e he => fault?_eq_none_iff.mpr (h.taken e he)
    rw [h.unique (hexact.of_ok hp)]
    exact hp

/-- A mapping gives options if and only if each entry can be taken. These are then the values of
    its entries and the defaults, in any order. The first entry that cannot be taken decides the
    error, which is about the option and the value unless a whole number was asked of a value
    that has none, or one of too many digits would have to be written. -/
theorem options_of_mapping (entries : List (Value × Value)) :
    (∀ o, ofMapping entries = .ok o ↔ Given {} (Value.mapOf entries) o) ∧
    (∀ others, (Value.mapOf others).Perm (Value.mapOf entries) →
      ∀ o, ofMapping others = .ok o ↔ ofMapping entries = .ok o) ∧
    (∀ f, ofMapping entries = .error f ↔ ∃ before e after, Value.mapOf entries = before ++ e :: after ∧
      fault? e = some f ∧ ∀ d ∈ before, Taken d) ∧
    ((∃ f, ofMapping entries = .error f ∧ ¬ f.Reported) ↔ ∃ before e after,
      Value.mapOf entries = before ++ e :: after ∧ Untold e ∧ ∀ d ∈ before, Taken d) := by
  have herror : ∀ f, ofMapping entries = .error f ↔ ∃ before e after, Value.mapOf entries = before ++ e :: after ∧
      fault? e = some f ∧ ∀ d ∈ before, Taken d := fun f => by
    simp only [← fault?_eq_none_iff]
    exact (exact_setAll {} (Value.apart_mapOf entries)).error_iff_first f
  refine ⟨ofMapping_eq_ok_iff entries, fun others hperm o => ?_, herror, ?_⟩
  · rw [ofMapping_eq_ok_iff, ofMapping_eq_ok_iff]
    exact ⟨Given.congr fun e => hperm.mem_iff, Given.congr fun e => hperm.mem_iff.symm⟩
  · simp only [herror]
    constructor
    · rintro ⟨f, ⟨before, e, after, hes, hf, hbefore⟩, hno⟩
      exact ⟨before, e, after, hes, (fault?_unreported_iff e).mp ⟨f, hf, hno⟩, hbefore⟩
    · rintro ⟨before, e, after, hes, huntold, hbefore⟩
      obtain ⟨f, hf, hno⟩ := (fault?_unreported_iff e).mpr huntold
      exact ⟨f, ⟨before, e, after, hes, hf, hbefore⟩, hno⟩

theorem unwritable_typePrefix {v : Value} (h : v.writable = false) :
    ofMapping [(.text "type_prefix", v)] = .error .unwritable := by
  have hset : Options.set {} .typePrefix v = .error .unwritable := by
    unfold set toText
    rw [h]
    rfl
  have hkey : OptionName.ofKey? (.text "type_prefix") = some .typePrefix := OptionName.ofKey?_eq_some_iff.mpr rfl
  show setAll {} [(.text "type_prefix", v)] = _
  simp only [setAll, hkey, hset]

/-- An empty list as an indentation, an infinite rule number and a number of 4301 digits as a prefix:
    the error does not say which option is wrong. -/
theorem a_list_is_no_number :
    (ofMapping [(.text "yaml_indent", .list [])] = .error .wrongType ∧ ¬ Fault.Reported .wrongType) ∧
    (ofMapping [(.text "debug_rule", .float (.infinite false))] = .error .tooLarge ∧ ¬ Fault.Reported .tooLarge) ∧
    (ofMapping [(.text "type_prefix", .int (10 ^ 4300))] = .error .unwritable ∧ ¬ Fault.Reported .unwritable) :=
  ⟨⟨rfl, id⟩, ⟨rfl, id⟩, unwritable_typePrefix (Number.not_isWritable_of_le (by decide +kernel)), id⟩

def unlimited : List (Value × Value) :=
  [(.text "expansion_depth", .text " All"), (.text "yaml_indent", .float (.finite false 9 (-1)))]

theorem options_of_unlimited :
    ofMapping unlimited = .ok { expansionDepth := none, yamlIndent := 4 } ∧
    ofMapping unlimited.reverse = .ok { expansionDepth := none, yamlIndent := 4 } := by
  have hgiven : ofMapping unlimited = .ok { expansionDepth := none, yamlIndent := 4 } := by rfl
  have hperm : (Value.mapOf unlimited.reverse).Perm (Value.mapOf unlimited) := List.reverse_perm unlimited
  exact ⟨hgiven, ((options_of_mapping unlimited).2.1 _ hperm _).mpr hgiven⟩

/-! ## Environments -/

def assigned (environment : Table String) : List (Value × Value) :=
  OptionName.all.filterMap fun o => (environment.get? o.envName).map fun s => (.text o.text, .text s)

theorem apart_assigned (environment : Table String) : Value.Apart (assigned environment) := by
  have hall : OptionName.all.Pairwise (· ≠ ·) := by decide
  refine List.pairwise_filterMap.mpr (hall.imp fun {n n'} hne d hd e he => ?_)
  obtain ⟨s, -, rfl⟩ := Option.map_eq_some_iff.mp hd
  obtain ⟨s', -, rfl⟩ := Option.map_eq_some_iff.mp he
  exact decide_eq_false fun htext => hne (OptionName.text_injective htext)

/-- Variables are texts, and what is wrong with a text is always reported. -/
theorem reported_of_ofEnv {environment : Table String} {f : Fault} (h : ofEnv environment = .error f) : f.Reported := by
  have hfirst := ((exact_setAll {} (apart_assigned environment)).error_iff f).mp h
  obtain ⟨e, he, hf⟩ := List.mem_filterMap.mp (List.mem_of_head? hfirst)
  obtain ⟨n, -, hvariable⟩ := List.mem_filterMap.mp he
  obtain ⟨s, -, rfl⟩ := Option.map_eq_some_iff.mp hvariable
  refine Classical.byContradiction fun hno => ?_
  rcases (fault?_unreported_iff _).mp ⟨f, hf, hno⟩ with hkey | ⟨m, -, hm⟩
  · cases hkey
  · cases m <;> simp [Unmeasured, Numeric, Value.writable] at hm

end Options

end Portcullis
