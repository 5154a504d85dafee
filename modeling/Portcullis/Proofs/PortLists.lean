/-
  Portcullis.Proofs.PortLists — port lists as they are read, and their unions.

  Of a port list only the ranges count that its items spell, in whatever digits, order and
  number (`Spelled`). What is read is the one list of their plain texts in increasing order,
  so it is told by these ranges and reads as itself (`Normal`).
  - `canonical_iff_read`: the restrictions in normal form are the ones that are read.
  - `union_eq_some_iff`: the union of two such restrictions is the one that allows what either
    allows. So unions are a semilattice (`Semilattice`) in which no restriction is the top.
  - `port_lists_united`: all of this, and that reading two lists with a comma between them is
    uniting what is read of them.
-/

import Portcullis.Proofs.Ports
import Portcullis.Proofs.TokenGrammar

namespace Portcullis

open Portcullis.Text Portcullis.Number

namespace PortRange

theorem ends_of_text (r : PortRange) : Ends r.text.toList (Nat.toDigits 10 r.first) (Nat.toDigits 10 r.last) := by
  have hdigits : ∀ n, Digits (Nat.toDigits 10 n) := fun n =>
    ⟨Nat.toDigits_ne_nil, fun c hc => isDigit_of_ascii (isDigit_of_mem_toDigits hc)⟩
  obtain ⟨a, b⟩ := r
  by_cases h : a = b
  · subst h
    simpa [text] using Ends.alone (hdigits a)
  · simpa [text, h] using Ends.both (hdigits a) (hdigits b)

/-- The text of a valid range denotes it. -/
theorem denotes_text {r : PortRange} (h : r.valid = true) : Denotes r.text.toList r := by
  obtain ⟨hfirst, hlast⟩ := writable_of_valid h
  exact ⟨_, ⟨_, _, r.ends_of_text, hfirst, hlast, by rw [digitsValue_toDigits, digitsValue_toDigits]⟩, .inl rfl⟩

/-- A text denotes one range at most. -/
theorem Denotes.unique {cs : List Char} {r q : PortRange} (hr : Denotes cs r) (hq : Denotes cs q) : r = q := by
  obtain ⟨as, bs, hends, -, -, rfl⟩ := denotes_iff.mp hr
  obtain ⟨as', bs', hends', -, -, rfl⟩ := denotes_iff.mp hq
  cases hends.symm.trans hends'
  rfl

theorem normal_eq_iff {rs qs : List PortRange} : normal rs = normal qs ↔ ∀ r, r ∈ rs ↔ r ∈ qs := by
  constructor
  · intro h r
    rw [← mem_normal, h, mem_normal]
  · intro h
    exact ordered_ext (ordered_normal rs) (ordered_normal qs) fun r => by rw [mem_normal, mem_normal, h]

theorem map_text_inj {rs qs : List PortRange} : rs.map text = qs.map text ↔ rs = qs :=
  List.map_inj_right fun _ _ => text_injective

end PortRange

namespace Ports

open PortRange

/-! ## Items -/

def Spelled (cs : List Char) (r : PortRange) : Prop := ∃ p ∈ pieces ',' cs, Denotes p r

theorem parseItems_append {ps qs : List (List Char)} {rs ss : List PortRange} (hr : parseItems ps = .ok rs)
    (hs : parseItems qs = .ok ss) : parseItems (ps ++ qs) = .ok (rs ++ ss) := by
  induction ps generalizing rs with
  | nil =>
    cases hr
    exact hs
  | cons p ps ih =>
    obtain ⟨r, rs', hp, hps, rfl⟩ := parseItems_cons.mp hr
    exact parseItems_cons.mpr ⟨r, rs' ++ ss, hp, ih hps, rfl⟩

/-- The ranges that are read are those of the items. -/
theorem mem_of_parseItems {ps : List (List Char)} {rs : List PortRange} (h : parseItems ps = .ok rs) (r : PortRange) :
    r ∈ rs ↔ ∃ p ∈ ps, Denotes p r := by
  induction ps generalizing rs with
  | nil =>
    cases h
    simp
  | cons p ps ih =>
    obtain ⟨q, rs', hp, hps, rfl⟩ := parseItems_cons.mp h
    have hq := (parseItem_denotes_iff.mp hp).1
    have hone : r = q ↔ Denotes p r := ⟨fun e => e ▸ hq, fun hr => hr.unique hq⟩
    simp only [List.mem_cons, exists_eq_or_imp, ih hps, hone]

/-- Ranges are read from their texts. -/
theorem parseItems_texts {rs : List PortRange} (h : ∀ r ∈ rs, r.valid = true) :
    parseItems (rs.map fun r => r.text.toList) = .ok rs := by
  induction rs with
  | nil => rfl
  | cons r rs ih =>
    have hr := parseItem_denotes_iff.mpr ⟨denotes_text (h r (by simp)), valid_iff.mp (h r (by simp))⟩
    exact parseItems_cons.mpr ⟨r, rs, hr, ih fun q hq => h q (by simp [hq]), rfl⟩

/-! ## Lists in normal form -/

def listText (l : List String) : List Char := join ',' (l.map String.toList)

inductive Plain : String → Prop
  | alone {a : Nat} (h : 1 ≤ a) (hle : a ≤ 65535) : Plain (toString a)
  | ends {a b : Nat} (h : 1 ≤ a) (hlt : a < b) (hle : b ≤ 65535) : Plain (toString a ++ "-" ++ toString b)

theorem plain_text {r : PortRange} (h : r.valid = true) : Plain r.text := by
  obtain ⟨a, b⟩ := r
  obtain ⟨hone, hle, hmax⟩ := valid_iff.mp h
  unfold text
  split
  · exact .alone hone (Nat.le_trans hle hmax)
  · exact .ends hone (Nat.lt_of_le_of_ne hle ‹_›) hmax

theorem mem_of_parse? {cs : List Char} {l : List String} (h : parse? (some cs) = .ok (some l)) (t : String) :
    t ∈ l ↔ ∃ r, Spelled cs r ∧ t = r.text := by
  obtain ⟨rs, hrs, rfl⟩ := parse?_eq_list_iff.mp h
  have hmem : ∀ r, r ∈ rs ↔ Spelled cs r := mem_of_parseItems hrs
  simp only [List.mem_map, mem_normal, hmem, eq_comm]

theorem Canonical.ne_nil {l : List String} (h : Canonical (some l)) : l ≠ [] := by
  obtain ⟨rs, hne, -, rfl⟩ := h l rfl
  obtain ⟨r, hr⟩ := List.exists_mem_of_ne_nil rs hne
  exact List.ne_nil_of_mem (List.mem_map_of_mem (mem_normal.mpr hr))

/-- A list in normal form is read from its text. -/
theorem parse?_listText {l : List String} (h : Canonical (some l)) : parse? (some (listText l)) = .ok (some l) := by
  have hne := h.ne_nil
  obtain ⟨rs, -, hvalid, rfl⟩ := h l rfl
  have htexts : ((normal rs).map text).map String.toList = (normal rs).map fun r => r.text.toList := List.map_map
  have hnil : (normal rs).map (fun r => r.text.toList) ≠ [] := by simpa using hne
  have hcomma : ∀ p ∈ (normal rs).map (fun r => r.text.toList), ',' ∉ p := by
    intro p hp
    obtain ⟨r, -, rfl⟩ := List.mem_map.mp hp
    exact r.ends_of_text.not_mem (by decide) (by decide)
  have hitems := parseItems_texts fun r hr => hvalid r (mem_normal.mp hr)
  refine parse?_eq_list_iff.mpr ⟨normal rs, ?_, ?_⟩
  · rw [listText, htexts, pieces_join hnil hcomma]
    exact hitems
  · rw [normal_eq_iff.mpr fun r => mem_normal]

theorem canonical_iff_read {p : Ports} : Canonical p ↔ ∃ o, parse? o = .ok p := by
  constructor
  · intro h
    cases p with
    | none => exact ⟨none, rfl⟩
    | some l => exact ⟨_, parse?_listText h⟩
  · rintro ⟨o, ho⟩
    exact canonical_of_parse? ho

structure Normal (cs : List Char) (l : List String) : Prop where
  ne_nil : l ≠ []
  listed : Listed l
  plain : ∀ t ∈ l, Plain t
  /-- It lists the texts of the ranges that are spelled, and no others. -/
  spelled : ∀ t, t ∈ l ↔ ∃ r, Spelled cs r ∧ t = r.text
  stable : parse? (some (listText l)) = .ok (some l)

theorem normal_of_parse? {cs : List Char} {l : List String} (h : parse? (some cs) = .ok (some l)) : Normal cs l := by
  have hcanonical := canonical_of_parse? h
  refine ⟨hcanonical.ne_nil, hcanonical.listed, fun t ht => ?_, mem_of_parse? h, parse?_listText hcanonical⟩
  obtain ⟨rs, -, hvalid, rfl⟩ := hcanonical l rfl
  obtain ⟨r, hr, rfl⟩ := List.mem_map.mp ht
  exact plain_text (hvalid r (mem_normal.mp hr))

/-- Lists that are read are equal if and only if the same ranges are spelled. -/
theorem list_eq_iff_spelled {cs ds : List Char} {l m : List String} (hl : parse? (some cs) = .ok (some l))
    (hm : parse? (some ds) = .ok (some m)) : l = m ↔ ∀ r, Spelled cs r ↔ Spelled ds r := by
  obtain ⟨rs, hrs, rfl⟩ := parse?_eq_list_iff.mp hl
  obtain ⟨qs, hqs, rfl⟩ := parse?_eq_list_iff.mp hm
  rw [map_text_inj, normal_eq_iff]
  exact forall_congr' fun r => iff_congr (mem_of_parseItems hrs r) (mem_of_parseItems hqs r)

/-! ## Unions -/

/-- The union of two restrictions in normal form is the one that allows what either allows. -/
theorem union_eq_some_iff {p q u : Ports} (hp : Canonical p) (hq : Canonical q) :
    merge? p q = some u ↔ Canonical u ∧ ∀ t, Allows u t ↔ Allows p t ∨ Allows q t := by
  obtain ⟨v, hv, hcanonical, hallows⟩ := merge?_canonical hp hq
  rw [hv]
  constructor
  · rintro ⟨rfl⟩
    exact ⟨hcanonical, hallows⟩
  · rintro ⟨hu, hall⟩
    rw [hcanonical.ext hu fun t => (hallows t).trans (hall t).symm]

/-- Reading two lists with a comma between them is uniting what is read of them. -/
theorem parse?_comma {cs ds : List Char} {l m : List String} (hl : parse? (some cs) = .ok (some l))
    (hm : parse? (some ds) = .ok (some m)) :
    ∃ u, parse? (some (cs ++ ',' :: ds)) = .ok (some u) ∧ merge? (some l) (some m) = some (some u) := by
  obtain ⟨rs, hrs, rfl⟩ := parse?_eq_list_iff.mp hl
  obtain ⟨qs, hqs, rfl⟩ := parse?_eq_list_iff.mp hm
  refine ⟨(normal (rs ++ qs)).map text, parse?_eq_list_iff.mpr ⟨rs ++ qs, ?_, rfl⟩, ?_⟩
  · rw [pieces_concat]
    exact parseItems_append hrs hqs
  · have hnormal : normal (normal rs ++ normal qs) = normal (rs ++ qs) :=
      normal_eq_iff.mpr fun r => by simp only [List.mem_append, mem_normal]
    have hvalid : ∀ r ∈ normal rs ++ normal qs, r.valid = true := fun r hr =>
      (List.mem_append.mp hr).elim (fun h => (valid_of_parseItems hrs).2 r (mem_normal.mp h))
        fun h => (valid_of_parseItems hqs).2 r (mem_normal.mp h)
    rw [merge?, ← List.map_append, sort?_texts hvalid, hnormal]
    rfl

/-- The laws of unions among some restrictions. No restriction at all absorbs every
    other, it is the union of no two lists, and no union is an empty list. -/
structure Semilattice (P : Ports → Prop) : Prop where
  closed : ∀ {p q}, P p → P q → ∃ u, merge? p q = some u ∧ P u
  comm : ∀ {p q}, P p → P q → merge? p q = merge? q p
  assoc : ∀ {p q r}, P p → P q → P r → (merge? p q).bind (merge? · r) = (merge? q r).bind (merge? p)
  idem : ∀ {p}, P p → merge? p p = some p
  absorbs : ∀ {p}, P p → merge? none p = some none ∧ merge? p none = some none
  none_iff : ∀ {p q}, P p → P q → (merge? p q = some none ↔ p = none ∨ q = none)
  ne_nil : ∀ {p q}, P p → P q → merge? p q ≠ some (some [])

theorem semilattice_canonical : Semilattice Canonical where
  closed hp hq := by
    obtain ⟨u, hu, hcanonical, -⟩ := merge?_canonical hp hq
    exact ⟨u, hu, hcanonical⟩
  comm {p q} hp hq := by
    obtain ⟨u, hu, hcanonical, hallows⟩ := merge?_canonical hp hq
    rw [hu, (union_eq_some_iff hq hp).mpr ⟨hcanonical, fun t => (hallows t).trans Or.comm⟩]
  assoc {p q r} hp hq hr := by
    obtain ⟨u, hu, hcu, hallu⟩ := merge?_canonical hp hq
    obtain ⟨v, hv, hcv, hallv⟩ := merge?_canonical hq hr
    obtain ⟨w, hw, hcw, hallw⟩ := merge?_canonical hcu hr
    have hright : merge? p v = some w := (union_eq_some_iff hp hcv).mpr
      ⟨hcw, fun t => by rw [hallw, hallu, hallv, or_assoc]⟩
    rw [hu, hv, Option.bind_some, Option.bind_some, hw, hright]
  idem {p} hp := (union_eq_some_iff hp hp).mpr ⟨hp, fun t => (or_self_iff).symm⟩
  absorbs {p} _ := ⟨rfl, by cases p <;> rfl⟩
  none_iff {p q} hp hq := by
    constructor
    · intro h
      cases p with
      | none => exact .inl rfl
      | some l =>
        cases q with
        | none => exact .inr rfl
        | some m =>
          -- A list does not allow every text, and two lists do not allow the empty one.
          have hall := ((union_eq_some_iff hp hq).mp h).2 ""
          exact absurd (hall.mp (allows_none "")) (not_or.mpr ⟨hp.bars, hq.bars⟩)
    · rintro (rfl | rfl)
      · rfl
      · cases p <;> rfl
  ne_nil hp hq h := ((union_eq_some_iff hp hq).mp h).1.ne_nil rfl

def Read (p : Ports) : Prop := ∃ o, parse? o = .ok p

/-- The lists that are read are in normal form and told by the ranges that are spelled, reading
    lists with commas between them is uniting them, and unions are a semilattice. -/
theorem port_lists_united :
    (∀ {cs l}, parse? (some cs) = .ok (some l) → Normal cs l) ∧
    (∀ {cs ds l m}, parse? (some cs) = .ok (some l) → parse? (some ds) = .ok (some m) →
      (l = m ↔ ∀ r, Spelled cs r ↔ Spelled ds r) ∧
      ∃ u, parse? (some (cs ++ ',' :: ds)) = .ok (some u) ∧ merge? (some l) (some m) = some (some u)) ∧
    Semilattice Read := by
  have hread : Read = Canonical := funext fun p => propext canonical_iff_read.symm
  refine ⟨normal_of_parse?, fun hl hm => ⟨list_eq_iff_spelled hl hm, parse?_comma hl hm⟩, ?_⟩
  rw [hread]
  exact semilattice_canonical

/-- Two spellings of 443 and a range, then the range and another port. -/
theorem port_lists_of_scattered :
    Normal "443,080-90,\u0664\u0664\u0663".toList ["80-90", "443"] ∧
    (["80-90", "443"] = ["80-90", "100"] ↔
      ∀ r, Spelled "443,080-90,\u0664\u0664\u0663".toList r ↔ Spelled "80-90,0100".toList r) ∧
    (∃ u, parse? (some ("443,080-90,\u0664\u0664\u0663".toList ++ ',' :: "80-90,0100".toList)) = .ok (some u) ∧
      merge? (some ["80-90", "443"]) (some ["80-90", "100"]) = some (some u)) ∧
    merge? (some ["80-90", "443"]) (some ["80-90", "443"]) = some (some ["80-90", "443"]) := by
  obtain ⟨hnormal, hpair, hlaws⟩ := port_lists_united
  have hfirst : parse? (some "443,080-90,\u0664\u0664\u0663".toList) = .ok (some ["80-90", "443"]) := by decide +kernel
  have hsecond : parse? (some "80-90,0100".toList) = .ok (some ["80-90", "100"]) := by decide +kernel
  exact ⟨hnormal hfirst, (hpair hfirst hsecond).1, (hpair hfirst hsecond).2, hlaws.idem ⟨_, hfirst⟩⟩

end Ports

end Portcullis
