/-
  Portcullis.Proofs.Ports — port restrictions in normal form.

  A restriction is known by the port texts that it allows; no restriction allows every text.
  Restrictions that were read from a token, and unions of such, are in normal form
  (`Canonical`): the texts of valid ranges in increasing order, each once.
  - `canonical_of_parse?`: what is read is in normal form.
  - `merge?_canonical`: the union of two normal forms exists, is in normal form and allows
    what either of them allows.
  - `Canonical.ext`: two normal forms that allow the same texts are equal.
-/

import Portcullis.Ports
import Portcullis.Proofs.Numeral

namespace Portcullis

open Portcullis.Text Portcullis.Number

namespace PortRange

/-! ## The order of ranges -/

theorem before_iff {a b : PortRange} :
    a.before b = true ↔ a.first < b.first ∨ (a.first = b.first ∧ a.last < b.last) := by
  simp [before]

theorem before_irrefl (a : PortRange) : ¬ a.before a = true := by
  rw [before_iff]; omega

theorem before_trans {a b c : PortRange} (h : a.before b = true) (h' : b.before c = true) : a.before c = true := by
  rw [before_iff] at *; omega

theorem before_or_before {a b : PortRange} (h : a ≠ b) : a.before b = true ∨ b.before a = true := by
  have h' : ¬ (a.first = b.first ∧ a.last = b.last) := fun e => h (by cases a; cases b; simp_all)
  rw [before_iff, before_iff]; omega

abbrev Ordered (rs : List PortRange) : Prop := rs.Pairwise fun a b => a.before b = true

theorem mem_insert {r x : PortRange} {rs : List PortRange} : x ∈ insert r rs ↔ x = r ∨ x ∈ rs := by
  induction rs with
  | nil => simp [insert]
  | cons q qs ih =>
    simp only [insert]
    split
    · rename_i h; subst h; simp
    · split
      · simp
      · simp only [List.mem_cons, ih]
        constructor <;> (rintro (h | h | h) <;> simp [h])

theorem ordered_insert {r : PortRange} {rs : List PortRange} (h : Ordered rs) : Ordered (insert r rs) := by
  induction rs with
  | nil => simp [insert]
  | cons q qs ih =>
    obtain ⟨hq, hqs⟩ := List.pairwise_cons.mp h
    simp only [insert]
    split
    · exact h
    · rename_i hne
      split
      · rename_i hb
        refine List.pairwise_cons.mpr ⟨fun x hx => ?_, h⟩
        rcases List.mem_cons.mp hx with rfl | hx
        · exact hb
        · exact before_trans hb (hq x hx)
      · rename_i hb
        refine List.pairwise_cons.mpr ⟨fun x hx => ?_, ih hqs⟩
        rcases mem_insert.mp hx with rfl | hx
        · exact (before_or_before hne).resolve_left hb
        · exact hq x hx

@[simp] theorem mem_normal {x : PortRange} {rs : List PortRange} : x ∈ normal rs ↔ x ∈ rs := by
  induction rs with
  | nil => simp [normal]
  | cons r rs ih => simpa [normal, mem_insert] using or_congr_right ih

theorem ordered_normal (rs : List PortRange) : Ordered (normal rs) := by
  induction rs with
  | nil => simp [normal]
  | cons r rs ih => exact ordered_insert ih

/-- An ordered list is known by its members. -/
theorem ordered_ext {as bs : List PortRange} (ha : Ordered as) (hb : Ordered bs) (h : ∀ x, x ∈ as ↔ x ∈ bs) :
    as = bs := by
  have nodup : ∀ {l : List PortRange}, Ordered l → l.Nodup := fun hl =>
    hl.imp fun {a b} hab (e : a = b) => before_irrefl a (by rw [e] at hab ⊢; exact hab)
  refine ((List.perm_ext_iff_of_nodup (nodup ha) (nodup hb)).mpr h).eq_of_pairwise ?_ ha hb
  intro a b _ _ h1 h2
  exact absurd (before_trans h1 h2) (before_irrefl a)

/-! ## The text of a range -/

theorem toList_toString (n : Nat) : (toString n).toList = Nat.toDigits 10 n := by
  rw [Nat.toString_eq_repr, Nat.toList_repr]

/-- The text of a range names its two ends; a single port is both. -/
theorem ends_text (r : PortRange) : Text.before '-' r.text.toList = Nat.toDigits 10 r.first ∧
    (after? '-' r.text.toList).getD (Nat.toDigits 10 r.first) = Nat.toDigits 10 r.last := by
  by_cases h : r.first = r.last
  · have hcs : r.text.toList = Nat.toDigits 10 r.last := by simp [text, h]
    rw [hcs, h, before_of_not_mem (not_mem_toDigits (by decide) _),
      after?_eq_none_iff.mpr (not_mem_toDigits (by decide) _)]
    exact ⟨rfl, rfl⟩
  · have hcs : r.text.toList = Nat.toDigits 10 r.first ++ '-' :: Nat.toDigits 10 r.last := by simp [text, h]
    rw [hcs, before_append (not_mem_toDigits (by decide) _), after?_append (not_mem_toDigits (by decide) _)]
    exact ⟨rfl, rfl⟩

theorem text_injective {r q : PortRange} (h : r.text = q.text) : r = q := by
  have inj : ∀ {a b : Nat}, Nat.toDigits 10 a = Nat.toDigits 10 b → a = b := fun {a b} e => by
    rw [← digitsValue_toDigits a, e, digitsValue_toDigits]
  obtain ⟨hr, hr'⟩ := r.ends_text
  obtain ⟨hq, hq'⟩ := q.ends_text
  rw [h, hq] at hr
  rw [h, ← hr, hq'] at hr'
  cases r
  cases q
  exact congrArg₂ mk (inj hr).symm (inj hr').symm

theorem text_ne_empty (r : PortRange) : r.text ≠ "" := fun h => by
  have hr := r.ends_text.1
  rw [h] at hr
  exact Nat.toDigits_ne_nil hr.symm

theorem valid_iff {r : PortRange} : r.valid = true ↔ 1 ≤ r.first ∧ r.first ≤ r.last ∧ r.last ≤ 65535 := by
  simp only [valid, Bool.and_eq_true, decide_eq_true_eq, and_assoc]
  rfl

theorem writable_of_valid {r : PortRange} (h : r.valid = true) : Writable r.first ∧ Writable r.last := by
  obtain ⟨-, hle, hmax⟩ := valid_iff.mp h
  exact ⟨writable_of_lt (by omega), writable_of_lt (by omega)⟩

/-- The key of a valid range is its two ends. -/
theorem sortKey?_text {r : PortRange} (h : r.valid = true) :
    Ports.sortKey? r.text = some ((r.first : Int), (r.last : Int)) := by
  obtain ⟨hbefore, hafter⟩ := r.ends_text
  obtain ⟨hfirst, hlast⟩ := writable_of_valid h
  simp only [Ports.sortKey?, hbefore, readInt?_toDigits hfirst]
  cases ha : after? '-' r.text.toList with
  | none =>
    rw [ha] at hafter
    simp only [show Nat.toDigits 10 r.first = Nat.toDigits 10 r.last from hafter, readInt?_toDigits hlast]
  | some cs =>
    rw [ha] at hafter
    obtain rfl : cs = Nat.toDigits 10 r.last := hafter
    have hread := readInt?_toDigits hlast
    cases hl : Nat.toDigits 10 r.last with
    | nil => exact absurd hl Nat.toDigits_ne_nil
    | cons c cs =>
      rw [hl] at hread
      simp only [hread]

/-! ## Sorting texts is sorting ranges -/

def keyed (r : PortRange) : Ports.Keyed := (r.text, ((r.first : Int), (r.last : Int)))

theorem eq_of_ends {r q : PortRange} (h : ((r.first : Int), (r.last : Int)) = ((q.first : Int), (q.last : Int))) :
    r = q := by
  simp only [Prod.mk.injEq] at h
  cases r; cases q
  simp only [mk.injEq] at h ⊢
  omega

theorem keyed_inj {r q : PortRange} : r.keyed = q.keyed ↔ r = q :=
  ⟨fun h => text_injective (congrArg Prod.fst h), fun h => congrArg keyed h⟩

theorem listedBefore_keyed {r q : PortRange} (h : r ≠ q) : Ports.listedBefore r.keyed q.keyed = r.before q := by
  have hne : ¬ (((r.first : Int), (r.last : Int)) = ((q.first : Int), (q.last : Int))) := fun e => h (eq_of_ends e)
  simp [Ports.listedBefore, Ports.keyBefore, keyed, before, hne]

theorem insertKeyed_keyed (r : PortRange) (qs : List PortRange) :
    Ports.insertKeyed r.keyed (qs.map keyed) = (insert r qs).map keyed := by
  induction qs with
  | nil => rfl
  | cons q qs ih =>
    simp only [List.map_cons, Ports.insertKeyed, insert, keyed_inj]
    split
    · rfl
    · rename_i hne
      rw [listedBefore_keyed hne, ih]
      split <;> rfl

theorem withKeys?_texts {rs : List PortRange} (h : ∀ r ∈ rs, r.valid = true) :
    Ports.withKeys? (rs.map text) = some (rs.map keyed) := by
  induction rs with
  | nil => rfl
  | cons r rs ih =>
    obtain ⟨hr, hrs⟩ := List.forall_mem_cons.mp h
    simp only [List.map_cons, Ports.withKeys?, sortKey?_text hr, ih hrs, keyed]

theorem sort?_texts {rs : List PortRange} (h : ∀ r ∈ rs, r.valid = true) :
    Ports.sort? (rs.map text) = some ((normal rs).map text) := by
  have hfold : (rs.map keyed).foldr Ports.insertKeyed [] = (normal rs).map keyed := by
    clear h
    induction rs with
    | nil => rfl
    | cons r rs ih => simp only [List.map_cons, List.foldr_cons, ih, insertKeyed_keyed]; rfl
  simp only [Ports.sort?, withKeys?_texts h, Option.map_some, hfold, List.map_map]
  rfl

end PortRange

namespace Ports

open PortRange

/-- Whether a restriction lets a port text pass. -/
def Allows (p : Ports) (t : String) : Prop := ∀ l, p = some l → t ∈ l

/-- Texts of valid ranges, at least one, in increasing order and each once. -/
def Canonical (p : Ports) : Prop :=
  ∀ l, p = some l → ∃ rs : List PortRange, rs ≠ [] ∧ (∀ r ∈ rs, r.valid = true) ∧ l = (normal rs).map text

@[simp] theorem allows_none (t : String) : Allows none t := fun _ h => by cases h

@[simp] theorem allows_some {l : List String} {t : String} : Allows (some l) t ↔ t ∈ l :=
  ⟨fun h => h l rfl, fun h l' e => by cases e; exact h⟩

theorem canonical_none : Canonical none := fun _ h => by cases h

theorem canonical_texts {rs : List PortRange} (hne : rs ≠ []) (h : ∀ r ∈ rs, r.valid = true) :
    Canonical (some ((normal rs).map text)) := by
  intro l e
  cases e; exact ⟨rs, hne, h, rfl⟩

/-- A restriction in normal form bars some text: the empty one. -/
theorem Canonical.bars {l : List String} (h : Canonical (some l)) : ¬ Allows (some l) "" := by
  intro ha
  obtain ⟨rs, -, -, rfl⟩ := h l rfl
  obtain ⟨r, -, hr⟩ := List.mem_map.mp (allows_some.mp ha)
  exact text_ne_empty r hr

/-- Restrictions in normal form are known by what they allow. -/
theorem Canonical.ext {p q : Ports} (hp : Canonical p) (hq : Canonical q) (h : ∀ t, Allows p t ↔ Allows q t) :
    p = q := by
  cases p with
  | none =>
    cases q with
    | none => rfl
    | some l => exact absurd ((h "").mp (allows_none "")) hq.bars
  | some k =>
    cases q with
    | none => exact absurd ((h "").mpr (allows_none "")) hp.bars
    | some l =>
      obtain ⟨rs, -, -, rfl⟩ := hp k rfl
      obtain ⟨qs, -, -, rfl⟩ := hq l rfl
      have member : ∀ (r : PortRange) (l : List PortRange), r.text ∈ l.map text ↔ r ∈ l := fun r l =>
        ⟨fun hm => by obtain ⟨x, hx, he⟩ := List.mem_map.mp hm; exact text_injective he ▸ hx, List.mem_map_of_mem⟩
      have hsame : normal rs = normal qs := ordered_ext (ordered_normal rs) (ordered_normal qs) fun r => by
        have := h r.text
        rwa [allows_some, allows_some, member, member] at this
      rw [hsame]

/-- The union of two restrictions in normal form. -/
theorem merge?_canonical {p q : Ports} (hp : Canonical p) (hq : Canonical q) :
    ∃ u, merge? p q = some u ∧ Canonical u ∧ ∀ t, Allows u t ↔ Allows p t ∨ Allows q t := by
  cases p with
  | none => exact ⟨none, by cases q <;> rfl, canonical_none, fun t => by simp⟩
  | some k =>
    cases q with
    | none => exact ⟨none, rfl, canonical_none, fun t => by simp⟩
    | some l =>
      obtain ⟨rs, hrs, hvr, rfl⟩ := hp k rfl
      obtain ⟨qs, -, hvq, rfl⟩ := hq l rfl
      have hvalid : ∀ r ∈ normal rs ++ normal qs, r.valid = true := fun r hr =>
        (List.mem_append.mp hr).elim (fun h => hvr r (mem_normal.mp h)) fun h => hvq r (mem_normal.mp h)
      refine ⟨some ((normal (normal rs ++ normal qs)).map text), ?_, ?_, fun t => ?_⟩
      · simp only [merge?, ← List.map_append, sort?_texts hvalid, Option.map_some]
      · refine canonical_texts (fun e => ?_) hvalid
        have := (List.append_eq_nil_iff.mp e).1
        obtain ⟨r, rs, rfl⟩ := List.exists_cons_of_ne_nil hrs
        have hm : r ∈ normal (r :: rs) := mem_normal.mpr (by simp)
        rw [this] at hm; cases hm
      · simp only [allows_some, List.mem_map, mem_normal, List.mem_append]
        constructor
        · intro hex
          rcases hex with ⟨r, h | h, rfl⟩
          · exact .inl ⟨r, h, rfl⟩
          · exact .inr ⟨r, h, rfl⟩
        · intro hor
          rcases hor with ⟨r, h, rfl⟩ | ⟨r, h, rfl⟩
          · exact ⟨r, .inl h, rfl⟩
          · exact ⟨r, .inr h, rfl⟩

theorem valid_of_parseItems {css : List (List Char)} {rs : List PortRange} (h : parseItems css = .ok rs) :
    rs.length = css.length ∧ ∀ r ∈ rs, r.valid = true := by
  induction css generalizing rs with
  | nil => cases h; simp
  | cons cs css ih =>
    obtain ⟨p, ps, hp, hps, rfl⟩ := parseItems_cons.mp h
    obtain ⟨hl, hv⟩ := ih hps
    obtain ⟨_, _, -, -, -, -, hvalid⟩ := parseItem_eq_ok_iff.mp hp
    exact ⟨by simp [hl], List.forall_mem_cons.mpr ⟨hvalid, hv⟩⟩

/-- The port list of a token is read into normal form. -/
theorem canonical_of_parse? {cs : Option (List Char)} {p : Ports} (h : parse? cs = .ok p) : Canonical p := by
  cases p with
  | none => exact canonical_none
  | some l =>
    cases cs with
    | none => cases h
    | some cs =>
      obtain ⟨rs, hrs, rfl⟩ := parse?_eq_list_iff.mp h
      obtain ⟨hl, hv⟩ := valid_of_parseItems hrs
      refine canonical_texts (fun e => pieces_ne_nil ',' cs ?_) hv
      rw [e] at hl
      exact List.eq_nil_of_length_eq_zero hl.symm

def Listed (l : List String) : Prop :=
  l.Pairwise fun s t => ∃ x y, sortKey? s = some x ∧ sortKey? t = some y ∧ keyBefore x y = true

theorem Canonical.listed {l : List String} (h : Canonical (some l)) : Listed l := by
  obtain ⟨rs, -, hvalid, rfl⟩ := h l rfl
  refine List.pairwise_map.mpr ((ordered_normal rs).imp_of_mem fun {a b} ha hb hab => ?_)
  refine ⟨_, _, sortKey?_text (hvalid a (mem_normal.mp ha)), sortKey?_text (hvalid b (mem_normal.mp hb)), ?_⟩
  rw [before_iff] at hab
  simp only [keyBefore, Bool.or_eq_true, Bool.and_eq_true, decide_eq_true_eq]
  omega

/-! ## Unions of many restrictions -/

/-- A union with no restriction among its parts is none. -/
theorem union_none {p : Ports} {C : Ports → Prop} (hp : Canonical p) (h : ∀ t, Allows p t ↔ ∃ q, C q ∧ Allows q t)
    (hn : C none) : p = none :=
  hp.ext canonical_none fun t => by
    rw [h]
    exact ⟨fun _ => allows_none t, fun _ => ⟨none, hn, allows_none t⟩⟩

/-- Any other union lists the ports of its parts. -/
theorem union_some {p : Ports} {C : Ports → Prop} (hp : Canonical p) (h : ∀ t, Allows p t ↔ ∃ q, C q ∧ Allows q t)
    (hc : ∀ q, C q → Canonical q) (hn : ¬ C none) :
    ∃ l, p = some l ∧ Listed l ∧ ∀ t, t ∈ l ↔ ∃ ps, C (some ps) ∧ t ∈ ps := by
  cases p with
  | none =>
    obtain ⟨q, hq, hall⟩ := (h "").mp (allows_none "")
    cases q with
    | none => exact absurd hq hn
    | some ps => exact absurd hall (hc _ hq).bars
  | some l =>
    refine ⟨l, rfl, hp.listed, fun t => ?_⟩
    rw [← allows_some, h]
    constructor
    · intro hex
      rcases hex with ⟨q, hq, hall⟩
      cases q with
      | none => exact absurd hq hn
      | some ps => exact ⟨ps, hq, allows_some.mp hall⟩
    · intro hex
      rcases hex with ⟨ps, hq, ht⟩
      exact ⟨some ps, hq, allows_some.mpr ht⟩

end Ports

end Portcullis
