/-
  Portcullis.Proofs.TokenGrammar — which texts are read as tokens.

  A token is a marked name or the text of a block, with a port list behind a colon if it has
  one. An item of that list is a number or two numbers with a hyphen, but one line break behind
  it is passed over.
  - `item_of_parseItem_iff`, `ports_of_parse?_iff`: the items and the lists that are read.
  - `classify_accepts_iff`: a text is read if and only if it is a token with such a list, and
    an error on any other names it. The tokens among these are those without a line break in
    the list.
  - `a_broken_port_is_read`: the line break makes a difference.
-/

import Mathlib.Data.List.Infix
import Mathlib.Data.List.TakeWhile
import Portcullis.Proofs.Keys
import Portcullis.Proofs.Ports

namespace Portcullis

open Portcullis.Text Portcullis.Number

/-! ## Ports -/

namespace PortRange

def Digits (cs : List Char) : Prop := cs ≠ [] ∧ ∀ c ∈ cs, isDigit c = true

/-- The digits of the two ends in a text of a range; a number alone is both. -/
inductive Ends : List Char → List Char → List Char → Prop
  | alone {ds : List Char} (h : Digits ds) : Ends ds ds ds
  | both {as bs : List Char} (ha : Digits as) (hb : Digits bs) : Ends (as ++ '-' :: bs) as bs

def Spells (cs : List Char) (r : PortRange) : Prop :=
  ∃ as bs, Ends cs as bs ∧ as.length ≤ longest ∧ bs.length ≤ longest ∧ r = ⟨digitsValue as, digitsValue bs⟩

def Overruns (cs : List Char) : Prop := ∃ as bs, Ends cs as bs ∧ (longest < as.length ∨ longest < bs.length)

theorem Ends.plain {cs as bs : List Char} (h : Ends cs as bs) {c : Char} (hc : c ∈ cs) : isDigit c = true ∨ c = '-' := by
  cases h with
  | alone h => exact .inl (h.2 c hc)
  | both ha hb =>
    rcases List.mem_append.mp hc with hc | hc
    · exact .inl (ha.2 c hc)
    · exact (List.mem_cons.mp hc).symm.imp_left (hb.2 c)

theorem Digits.exists_digit {cs : List Char} (h : Digits cs) : ∃ c ∈ cs, isDigit c = true := by
  obtain ⟨c, hc⟩ := List.exists_mem_of_ne_nil cs h.1
  exact ⟨c, hc, h.2 c hc⟩

theorem Ends.exists_digit {cs as bs : List Char} (h : Ends cs as bs) : ∃ c ∈ cs, isDigit c = true := by
  cases h with
  | alone h => exact h.exists_digit
  | both h _ =>
    obtain ⟨c, hc, hdigit⟩ := h.exists_digit
    exact ⟨c, List.mem_append_left _ hc, hdigit⟩

theorem Ends.ne_nil {cs as bs : List Char} (h : Ends cs as bs) : cs ≠ [] := by
  obtain ⟨c, hc, -⟩ := h.exists_digit
  exact List.ne_nil_of_mem hc

theorem Ends.not_mem {cs as bs : List Char} (h : Ends cs as bs) {c : Char} (hdigit : isDigit c = false) (hne : c ≠ '-') :
    c ∉ cs := fun hc => by
  rcases h.plain hc with hd | rfl
  · rw [hd] at hdigit
    cases hdigit
  · exact hne rfl

theorem Spells.ne_nil {cs : List Char} {r : PortRange} : Spells cs r → cs ≠ [] := fun ⟨_, _, h, _⟩ => h.ne_nil

theorem Spells.not_mem {cs : List Char} {r : PortRange} : Spells cs r → ∀ {c : Char}, isDigit c = false → c ≠ '-' →
    c ∉ cs := fun ⟨_, _, h, _⟩ _ => h.not_mem

theorem takeWhile_digits {as : List Char} (h : ∀ c ∈ as, isDigit c = true) (bs : List Char) :
    (as ++ '-' :: bs).takeWhile isDigit = as ∧ (as ++ '-' :: bs).dropWhile isDigit = '-' :: bs := by
  have hhyphen : isDigit '-' = false := by decide
  rw [List.takeWhile_append_of_pos h, List.dropWhile_append_of_pos h, List.takeWhile_cons_of_neg (by simp [hhyphen]),
    List.dropWhile_cons_of_neg (by simp [hhyphen]), List.append_nil]
  exact ⟨rfl, rfl⟩

/-- The ends are told by the text. -/
theorem ends?_eq_some_iff {cs as bs : List Char} : ends? cs = some (as, bs) ↔ Ends (dropFinalBreak cs) as bs := by
  unfold ends?
  generalize dropFinalBreak cs = body
  simp only
  constructor
  · intro h
    split at h
    · cases h
    rename_i hne
    have hdigits : ∀ c ∈ body.takeWhile isDigit, isDigit c = true := fun c hc => List.mem_takeWhile_imp hc
    have hbody := List.takeWhile_append_dropWhile (p := isDigit) (l := body)
    split at h
    · rename_i hrest
      cases h
      rw [hrest, List.append_nil] at hbody
      rw [hbody] at hne hdigits ⊢
      exact .alone ⟨hne, hdigits⟩
    · rename_i last hrest
      split at h
      · rename_i hlast
        cases h
        simp only [ne_eq, decide_not, Bool.and_eq_true, Bool.not_eq_true', decide_eq_false_iff_not,
          List.all_eq_true] at hlast
        rw [hrest] at hbody
        have hends := Ends.both ⟨hne, hdigits⟩ hlast
        rwa [hbody] at hends
      · cases h
    · cases h
  · intro h
    cases h with
    | alone h =>
      rw [List.takeWhile_eq_self_iff.mpr h.2, if_neg h.1, List.dropWhile_eq_nil_iff.mpr h.2]
    | both ha hb =>
      obtain ⟨htake, hdrop⟩ := takeWhile_digits ha.2 bs
      rw [htake, if_neg ha.1, hdrop]
      simp only
      rw [if_pos (by simpa [Digits] using hb)]

/-- The line break is cut off or there is none. -/
theorem dropFinalBreak_eq_iff {cs ds : List Char} (hds : '\n' ∉ ds) :
    dropFinalBreak cs = ds ↔ cs = ds ∨ cs = ds ++ ['\n'] := by
  unfold dropFinalBreak
  constructor
  · intro h
    split at h
    · rename_i hlast
      obtain ⟨ys, rfl⟩ := List.getLast?_eq_some_iff.mp hlast
      rw [List.dropLast_concat] at h
      exact .inr (h ▸ rfl)
    · exact .inl h
  · rintro (rfl | rfl)
    · exact if_neg fun h => hds (List.mem_of_getLast? h)
    · simp

/-- A text with or without a line break behind it. -/
def Broken (Text : List Char → Prop) (cs : List Char) : Prop := ∃ ds, Text ds ∧ (cs = ds ∨ cs = ds ++ ['\n'])

theorem broken_ends_iff {cs as bs : List Char} : Broken (Ends · as bs) cs ↔ ends? cs = some (as, bs) := by
  rw [ends?_eq_some_iff]
  constructor
  · rintro ⟨ds, h, hcs⟩
    rwa [(dropFinalBreak_eq_iff (h.not_mem (by decide) (by decide))).mpr hcs]
  · intro h
    exact ⟨_, h, (dropFinalBreak_eq_iff (h.not_mem (by decide) (by decide))).mp rfl⟩

def Denotes (cs : List Char) (r : PortRange) : Prop := Broken (Spells · r) cs

theorem denotes_iff {cs : List Char} {r : PortRange} : Denotes cs r ↔ ∃ as bs, ends? cs = some (as, bs) ∧
    as.length ≤ longest ∧ bs.length ≤ longest ∧ r = ⟨digitsValue as, digitsValue bs⟩ := by
  simp only [← broken_ends_iff]
  constructor
  · rintro ⟨ds, ⟨as, bs, hends, h⟩, hcs⟩
    exact ⟨as, bs, ⟨ds, hends, hcs⟩, h⟩
  · rintro ⟨as, bs, ⟨ds, hends, hcs⟩, h⟩
    exact ⟨ds, ⟨as, bs, hends, h⟩, hcs⟩

end PortRange

def Port (cs : List Char) : Prop :=
  ∃ r, PortRange.Spells cs r ∧ 1 ≤ r.first ∧ r.first ≤ r.last ∧ r.last ≤ 65535

def BrokenPort (cs : List Char) : Prop := PortRange.Broken Port cs

def LongItem (cs : List Char) : Prop := PortRange.Broken PortRange.Overruns cs

theorem Port.not_mem {cs : List Char} (h : Port cs) {c : Char} (hdigit : isDigit c = false) (hne : c ≠ '-') : c ∉ cs :=
  h.choose_spec.1.not_mem hdigit hne

theorem Port.broken {cs : List Char} (h : Port cs) : BrokenPort cs := ⟨cs, h, .inl rfl⟩

theorem BrokenPort.ne_nil {cs : List Char} (h : BrokenPort cs) : cs ≠ [] := by
  obtain ⟨ds, ⟨r, hds, -⟩, rfl | rfl⟩ := h
  · exact hds.ne_nil
  · simp

theorem BrokenPort.comma_not_mem {cs : List Char} (h : BrokenPort cs) : ',' ∉ cs := by
  obtain ⟨ds, hds, rfl | rfl⟩ := h
  · exact hds.not_mem (by decide) (by decide)
  · simpa using hds.not_mem (c := ',') (by decide) (by decide)

theorem port_iff {cs : List Char} : Port cs ↔ BrokenPort cs ∧ '\n' ∉ cs := by
  refine ⟨fun h => ⟨h.broken, h.not_mem (by decide) (by decide)⟩, ?_⟩
  rintro ⟨⟨ds, hds, rfl | rfl⟩, hbreak⟩
  · exact hds
  · exact absurd (by simp) hbreak

/-- The ranges that are read from an item: those of ports that it spells. -/
theorem parseItem_denotes_iff {cs : List Char} {r : PortRange} :
    Ports.parseItem cs = .ok r ↔ PortRange.Denotes cs r ∧ 1 ≤ r.first ∧ r.first ≤ r.last ∧ r.last ≤ 65535 := by
  simp only [Ports.parseItem_eq_ok_iff, PortRange.denotes_iff, PortRange.valid_iff]
  constructor
  · rintro ⟨as, bs, hends, has, hbs, hr, hvalid⟩
    exact ⟨⟨as, bs, hends, has, hbs, hr⟩, hvalid⟩
  · rintro ⟨⟨as, bs, hends, has, hbs, hr⟩, hvalid⟩
    exact ⟨as, bs, hends, has, hbs, hr, hvalid⟩

/-- The items where reading stops. -/
theorem overlong_of_parseItem_iff {cs : List Char} : Ports.parseItem cs = .error .overlong ↔ LongItem cs := by
  have hlong : LongItem cs ↔ ∃ as bs, PortRange.ends? cs = some (as, bs) ∧ (longest < as.length ∨ longest < bs.length) := by
    simp only [← PortRange.broken_ends_iff]
    constructor
    · rintro ⟨ds, ⟨as, bs, hends, h⟩, hcs⟩
      exact ⟨as, bs, ⟨ds, hends, hcs⟩, h⟩
    · rintro ⟨as, bs, ⟨ds, hends, hcs⟩, h⟩
      exact ⟨ds, ⟨as, bs, hends, h⟩, hcs⟩
  rw [hlong]
  unfold Ports.parseItem
  cases PortRange.ends? cs with
  | none => simp
  | some ends =>
    obtain ⟨as, bs⟩ := ends
    simp only [Option.some.injEq, Prod.mk.injEq, and_assoc, exists_and_left, exists_eq_left']
    split
    · rename_i h
      exact iff_of_true rfl (by simpa using h)
    · rename_i h
      exact iff_of_false (by split <;> exact nofun) (by simpa using h)

/-- The items that are read. -/
theorem item_of_parseItem_iff {cs : List Char} : (∃ r, Ports.parseItem cs = .ok r) ↔ BrokenPort cs := by
  simp only [parseItem_denotes_iff]
  constructor
  · rintro ⟨r, ⟨ds, hspells, hcs⟩, hrange⟩
    exact ⟨ds, ⟨r, hspells, hrange⟩, hcs⟩
  · rintro ⟨ds, ⟨r, hspells, hrange⟩, hcs⟩
    exact ⟨r, ⟨ds, hspells, hcs⟩, hrange⟩

theorem items_of_parseItems_iff {ps : List (List Char)} :
    (∃ rs, Ports.parseItems ps = .ok rs) ↔ ∀ p ∈ ps, BrokenPort p := by
  induction ps with
  | nil => simp [Ports.parseItems]
  | cons p ps ih =>
    rw [List.forall_mem_cons, ← ih, ← item_of_parseItem_iff]
    simp only [Ports.parseItems_cons]
    constructor
    · rintro ⟨_, r, rs, hr, hrs, -⟩
      exact ⟨⟨r, hr⟩, rs, hrs⟩
    · rintro ⟨⟨r, hr⟩, rs, hrs⟩
      exact ⟨_, r, rs, hr, hrs, rfl⟩

/-- Lists of items where reading stops: an end of an item has too many digits, and the items
    before it are ports. -/
inductive Halting : List (List Char) → Prop
  | here {p : List Char} {ps : List (List Char)} (h : LongItem p) : Halting (p :: ps)
  | there {p : List Char} {ps : List (List Char)} (hp : BrokenPort p) (h : Halting ps) : Halting (p :: ps)

/-- Reading stops at an item with digits. -/
theorem Halting.digit_of_single {p : List Char} (h : Halting [p]) : ∃ c ∈ p, isDigit c = true := by
  cases h with
  | there _ h => cases h
  | here h =>
    obtain ⟨ds, ⟨as, bs, hends, -⟩, hp⟩ := h
    obtain ⟨c, hc, hdigit⟩ := hends.exists_digit
    rcases hp with rfl | rfl
    · exact ⟨c, hc, hdigit⟩
    · exact ⟨c, List.mem_append_left _ hc, hdigit⟩

theorem overlong_of_parseItems_iff {ps : List (List Char)} : Ports.parseItems ps = .error .overlong ↔ Halting ps := by
  induction ps with
  | nil => exact ⟨nofun, nofun⟩
  | cons p ps ih =>
    simp only [Ports.parseItems]
    cases hp : Ports.parseItem p with
    | error f =>
      have hnot : ¬ BrokenPort p := fun h => by
        obtain ⟨r, hr⟩ := item_of_parseItem_iff.mpr h
        rw [hp] at hr
        cases hr
      have hlong : f = .overlong ↔ LongItem p := by rw [← overlong_of_parseItem_iff, hp, Except.error.injEq]
      simp only [Except.error.injEq]
      rw [hlong]
      refine ⟨.here, fun h => ?_⟩
      cases h with
      | here h => exact h
      | there hb _ => exact absurd hb hnot
    | ok r =>
      have hbroken := item_of_parseItem_iff.mp ⟨r, hp⟩
      have hnot : ¬ LongItem p := fun h => by
        rw [overlong_of_parseItem_iff.mpr h] at hp
        cases hp
      have hrest : Halting (p :: ps) ↔ Halting ps := by
        refine ⟨fun h => ?_, .there hbroken⟩
        cases h with
        | here h => exact absurd h hnot
        | there _ h => exact h
      rw [hrest, ← ih]
      cases Ports.parseItems ps <;> simp

/-! ## Port lists -/

section Grammar

variable (Item : List Char → Prop)

inductive PortList : List Char → Prop
  | every : PortList ['*']
  | items {ps : List (List Char)} (hne : ps ≠ []) (h : ∀ p ∈ ps, Item p) : PortList (join ',' ps)

inductive Tail : List Char → Prop
  | none : Tail []
  | ports {cs : List Char} (h : PortList Item cs) : Tail (':' :: cs)

/-- A token: a marker and a name, or a block, and what may stand behind them. -/
inductive Token : List Char → Prop
  | reference (space : Space) {name tail : List Char} (hne : name ≠ []) (hcolon : ':' ∉ name) (h : Tail Item tail) :
      Token (Classify.marker space ++ (name ++ tail))
  | block {address tail : List Char} {b : Block} (hb : Block.Denotes address b) (h : Tail Item tail) :
      Token (address ++ tail)

end Grammar

def Bare (cs : List Char) : Prop := ∀ c, cs.head? = some c ∨ cs.getLast? = some c → isBlank c = false

/-- What stands behind the marker of a token, if it has one. -/
def unmarked (cs : List Char) : List Char :=
  match Classify.reference? cs with
  | some (_, body) => body
  | none => cs

/-- The port list behind the first colon of a token, not counting the colon of a marker. -/
def portText? (cs : List Char) : Option (List Char) := after? ':' (unmarked cs)

/-- A name or an address with a port list where reading stops. -/
def Overrun (body : List Char) : Prop := before ':' body ≠ [] ∧ ∃ cs, after? ':' body = some cs ∧ Halting (pieces ',' cs)

section

variable {Item : List Char → Prop}

def Listed (Item : List Char → Prop) : Option (List Char) → Prop
  | none => True
  | some cs => PortList Item cs

/-- A text is taken apart at its first colon. -/
theorem cut_iff (Head : List Char → Prop) {cs : List Char} :
    (∃ name tail, cs = name ++ tail ∧ Head name ∧ ':' ∉ name ∧ Tail Item tail) ↔
      Head (before ':' cs) ∧ Listed Item (after? ':' cs) := by
  constructor
  · rintro ⟨name, tail, rfl, hname, hcolon, _ | htail⟩
    · rw [List.append_nil, before_of_not_mem hcolon, after?_eq_none_iff.mpr hcolon]
      exact ⟨hname, trivial⟩
    · rw [before_append hcolon, after?_append hcolon]
      exact ⟨hname, htail⟩
  · rintro ⟨hname, hlisted⟩
    have hcolon := not_mem_before ':' cs
    cases ha : after? ':' cs with
    | none =>
      have hbefore := before_of_not_mem (after?_eq_none_iff.mp ha)
      exact ⟨_, [], (List.append_nil _ ▸ hbefore.symm), hname, hcolon, .none⟩
    | some r =>
      rw [ha] at hlisted
      exact ⟨_, _, before_append_after ha, hname, hcolon, .ports hlisted⟩

/-- A text is taken apart at its marker. -/
theorem reference?_eq_some_iff {cs body : List Char} {space : Space} :
    Classify.reference? cs = some (space, body) ↔ cs = Classify.marker space ++ body := by
  have hgroup : ∀ rest, (Classify.marker .group).isPrefixOf (Classify.marker .tag ++ rest) = false := fun _ => rfl
  unfold Classify.reference?
  constructor
  · intro h
    split at h
    · rename_i hprefix
      cases h
      exact List.prefix_append_drop (List.isPrefixOf_iff_prefix.mp hprefix)
    split at h
    · rename_i hprefix
      cases h
      exact List.prefix_append_drop (List.isPrefixOf_iff_prefix.mp hprefix)
    · cases h
  · rintro rfl
    have hprefix := List.isPrefixOf_iff_prefix.mpr (List.prefix_append (Classify.marker space) body)
    cases space with
    | group => rw [if_pos hprefix, List.drop_left]
    | tag => rw [hgroup, if_neg (by decide), if_pos hprefix, List.drop_left]

/-- The text of a block has no marker and no colon. -/
theorem unmarked_of_denotes {address : List Char} {b : Block} (hb : Block.Denotes address b) (tail : List Char) :
    Classify.reference? (address ++ tail) = none ∧ ':' ∉ address := by
  refine ⟨?_, fun hc => by simpa using hb.digits _ hc⟩
  cases href : Classify.reference? (address ++ tail) with
  | none => rfl
  | some sb =>
    obtain ⟨space, body⟩ := sb
    have htext := reference?_eq_some_iff.mp href
    cases address with
    | nil => exact absurd rfl hb.ne_nil
    | cons c address =>
      have hc := hb.digits c (by simp)
      cases space with
      | group =>
        obtain rfl : c = 'g' := (List.cons.inj htext).1
        exact absurd hc (by decide)
      | tag =>
        obtain rfl : c = 't' := (List.cons.inj htext).1
        exact absurd hc (by decide)

def Named (cs : List Char) : Prop :=
  match Classify.reference? cs with
  | some (_, body) => before ':' body ≠ []
  | none => ∃ b, Block.Denotes (before ':' cs) b

/-- A token names something and goes on with its port list. -/
theorem token_iff {cs : List Char} : Token Item cs ↔ Named cs ∧ Listed Item (portText? cs) := by
  unfold Named portText? unmarked
  constructor
  · rintro (⟨space, hne, hcolon, htail⟩ | ⟨hb, htail⟩)
    · rename_i name tail
      rw [reference?_eq_some_iff.mpr rfl]
      exact (cut_iff (· ≠ [])).mp ⟨name, tail, rfl, hne, hcolon, htail⟩
    · rename_i address tail b
      obtain ⟨hunmarked, hcolon⟩ := unmarked_of_denotes hb tail
      rw [hunmarked]
      exact (cut_iff fun a => ∃ b, Block.Denotes a b).mp ⟨address, tail, rfl, ⟨b, hb⟩, hcolon, htail⟩
  · intro h
    split at h
    · rename_i space body href
      obtain ⟨name, tail, rfl, hne, hcolon, htail⟩ := (cut_iff (· ≠ [])).mpr h
      rw [reference?_eq_some_iff.mp href]
      exact .reference space hne hcolon htail
    · rename_i href
      obtain ⟨address, tail, rfl, ⟨b, hb⟩, hcolon, htail⟩ := (cut_iff fun a => ∃ b, Block.Denotes a b).mpr h
      exact .block hb htail

/-- A port list is an asterisk or has items between its commas. -/
theorem portList_iff (hitem : ∀ p, Item p → ',' ∉ p) (cs : List Char) :
    PortList Item cs ↔ cs = ['*'] ∨ ∀ p ∈ pieces ',' cs, Item p := by
  constructor
  · rintro (_ | ⟨hne, h⟩)
    · exact .inl rfl
    · rw [pieces_join hne fun p hp => hitem p (h p hp)]
      exact .inr h
  · rintro (rfl | h)
    · exact .every
    · rw [← join_pieces ',' cs]
      exact .items (pieces_ne_nil ',' cs) h

end

/-- The port lists that are read. -/
theorem ports_of_parse?_iff {o : Option (List Char)} : (∃ p, Ports.parse? o = .ok p) ↔ Listed BrokenPort o := by
  have hitem : ∀ p, BrokenPort p → ',' ∉ p := fun p hp => hp.comma_not_mem
  unfold Ports.parse?
  split
  · exact ⟨fun _ => trivial, fun _ => ⟨_, rfl⟩⟩
  · exact ⟨fun _ => .every, fun _ => ⟨_, rfl⟩⟩
  · -- The only item of an empty list is empty.
    refine ⟨fun ⟨_, hp⟩ => (by cases hp), fun h => ?_⟩
    rcases (portList_iff hitem []).mp h with h | h
    · cases h
    · exact absurd rfl (h [] (by simp [pieces])).ne_nil
  · rename_i cs hstar _
    rw [show Listed BrokenPort (some cs) ↔ _ from portList_iff hitem cs, or_iff_right hstar, ← items_of_parseItems_iff]
    cases Ports.parseItems (pieces ',' cs) <;> simp

/-- The port lists where reading stops. -/
theorem overlong_of_parse?_iff {o : Option (List Char)} :
    Ports.parse? o = .error .overlong ↔ ∃ cs, o = some cs ∧ Halting (pieces ',' cs) := by
  unfold Ports.parse?
  split
  · simp
  · refine iff_of_false nofun ?_
    rintro ⟨_, ⟨⟩, h⟩
    obtain ⟨c, hc, hdigit⟩ := h.digit_of_single
    rw [List.mem_singleton.mp hc] at hdigit
    exact absurd hdigit (by decide)
  · refine iff_of_false nofun ?_
    rintro ⟨_, ⟨⟩, h⟩
    obtain ⟨c, hc, -⟩ := h.digit_of_single
    cases hc
  · rename_i cs _ _
    simp only [Option.some.injEq, exists_eq_left', ← overlong_of_parseItems_iff]
    cases Ports.parseItems (pieces ',' cs) <;> simp

theorem listed_port_iff {o : Option (List Char)} :
    Listed Port o ↔ Listed BrokenPort o ∧ ∀ cs, o = some cs → '\n' ∉ cs := by
  cases o with
  | none => exact ⟨fun _ => ⟨trivial, fun cs h => by cases h⟩, fun _ => trivial⟩
  | some cs =>
    have hport := portList_iff (fun p (hp : Port p) => hp.broken.comma_not_mem) cs
    have hbroken := portList_iff (fun p (hp : BrokenPort p) => hp.comma_not_mem) cs
    simp only [Listed, hport, hbroken, Option.some.injEq, forall_eq']
    constructor
    · rintro (rfl | h)
      · exact ⟨.inl rfl, by decide⟩
      · refine ⟨.inr fun p hp => (h p hp).broken, fun hc => ?_⟩
        obtain ⟨p, hp, hcp⟩ := exists_mem_pieces hc (by decide : '\n' ≠ ',')
        exact (port_iff.mp (h p hp)).2 hcp
    · rintro ⟨rfl | h, hbreak⟩
      · exact .inl rfl
      · exact .inr fun p hp => port_iff.mpr ⟨h p hp, fun hc => hbreak (mem_of_mem_pieces hp hc)⟩

/-! ## Tokens -/

theorem dropWhile_eq_self_iff_head? {p : Char → Bool} {cs : List Char} :
    cs.dropWhile p = cs ↔ ∀ c, cs.head? = some c → p c = false := by
  cases cs with
  | nil => simp
  | cons c cs => simp [List.dropWhile_eq_self_iff]

/-- Nothing is cut off a text that no blank surrounds, and only off such a text. -/
theorem trimChars_eq_self_iff {cs : List Char} : trimChars cs = cs ↔ Bare cs := by
  unfold trimChars trimBy Bare
  constructor
  · intro h
    have hlength := congrArg List.length h
    have h1 := List.length_dropWhile_le isBlank cs
    have h2 := List.length_dropWhile_le isBlank (cs.dropWhile isBlank).reverse
    rw [List.length_reverse] at hlength h2
    have hfront : cs.dropWhile isBlank = cs := (List.dropWhile_suffix _).eq_of_length (by omega)
    rw [hfront] at h
    have hback : cs.reverse.dropWhile isBlank = cs.reverse := List.reverse_eq_iff.mp h
    rintro c (hc | hc)
    · exact dropWhile_eq_self_iff_head?.mp hfront c hc
    · exact dropWhile_eq_self_iff_head?.mp hback c (by rwa [List.head?_reverse])
  · intro h
    have hfront : cs.dropWhile isBlank = cs := dropWhile_eq_self_iff_head?.mpr fun c hc => h c (.inl hc)
    have hback : cs.reverse.dropWhile isBlank = cs.reverse :=
      dropWhile_eq_self_iff_head?.mpr fun c hc => h c (.inr (by rwa [List.head?_reverse] at hc))
    rw [hfront, hback, List.reverse_reverse]

namespace Classify

/-- A reading succeeds just when one condition holds and stops just when another does, and its
    errors name the token. -/
def Decides {α : Type} (token : String) (P S : Prop) : Except Unclassified α → Prop
  | .ok _ => P ∧ ¬ S
  | .error u => u.token = token ∧ ¬ P ∧ (u.cause.isReported = false ↔ S)

theorem isReported_ports_iff {f : Ports.Fault} : (Malformation.ports f).isReported = false ↔ f = .overlong := by
  cases f <;> simp [Malformation.isReported]

theorem decides_parsePorts (token : String) (o : Option (List Char)) :
    Decides token (Listed BrokenPort o) (∃ cs, o = some cs ∧ Halting (pieces ',' cs)) (parsePorts token o) := by
  have h := ports_of_parse?_iff (o := o)
  unfold parsePorts
  rw [← overlong_of_parse?_iff]
  cases hp : Ports.parse? o with
  | ok p => exact ⟨h.mp ⟨p, hp⟩, nofun⟩
  | error f =>
    refine ⟨rfl, fun hlisted => ?_, by simp [isReported_ports_iff]⟩
    obtain ⟨p, hok⟩ := h.mpr hlisted
    rw [hp] at hok
    cases hok

theorem decides_named (token : String) (space : Space) (body : List Char) :
    Decides token (before ':' body ≠ [] ∧ Listed BrokenPort (after? ':' body)) (Overrun body) (named token space body) := by
  have hports := decides_parsePorts token (after? ':' body)
  simp only [named]
  split
  · rename_i hempty
    exact ⟨rfl, fun h => h.1 hempty, iff_of_false (by simp [Malformation.isReported]) fun h => h.1 hempty⟩
  · rename_i hne
    unfold Overrun
    rw [and_iff_right hne, and_iff_right hne]
    cases hp : parsePorts token (after? ':' body) with
    | error u =>
      rw [hp] at hports
      exact hports
    | ok p =>
      rw [hp] at hports
      exact hports

theorem decides_block (token : String) (cs : List Char) :
    Decides token ((∃ b, Block.Denotes (before ':' cs) b) ∧ Listed BrokenPort (after? ':' cs)) (Overrun cs)
      (block token cs) := by
  have hports := decides_parsePorts token (after? ':' cs)
  simp only [block]
  split
  · rename_i hempty
    refine ⟨rfl, ?_, iff_of_false (by simp [Malformation.isReported]) fun h => h.1 hempty⟩
    rintro ⟨⟨b, hb⟩, -⟩
    exact hb.ne_nil hempty
  · rename_i hne
    unfold Overrun
    rw [and_iff_right hne]
    cases hp : parsePorts token (after? ':' cs) with
    | error u =>
      rw [hp] at hports
      exact ⟨hports.1, fun h => hports.2.1 h.2, hports.2.2⟩
    | ok p =>
      rw [hp] at hports
      rw [parse_completed]
      cases hb : Block.parse (before ':' cs) with
      | ok b => exact ⟨⟨⟨b, Block.parse_eq_ok_iff.mp hb⟩, hports.1⟩, hports.2⟩
      | error f =>
        -- The ports are read before the address is, so nothing stops here any more.
        refine ⟨rfl, ?_, iff_of_false Bool.noConfusion hports.2⟩
        rintro ⟨⟨b, hdenotes⟩, -⟩
        rw [Block.parse_eq_ok_iff.mpr hdenotes] at hb
        cases hb

end Classify

def Grammatical (Item : List Char → Prop) (token : String) : Prop := Bare token.toList ∧ Token Item token.toList

def Overlong (token : String) : Prop := Bare token.toList ∧ Overrun (unmarked token.toList)

theorem decides_classifyText (token : String) :
    Classify.Decides token (Grammatical BrokenPort token) (Overlong token) (classifyText token) := by
  unfold Grammatical Overlong classifyText
  rw [token_iff]
  simp only
  by_cases hblank : trimChars token.toList = []
  · rw [if_pos hblank]
    have hnil : Bare token.toList → token.toList = [] := fun hbare => (trimChars_eq_self_iff.mpr hbare).symm.trans hblank
    refine ⟨rfl, fun ⟨hbare, hnamed, _⟩ => ?_, iff_of_false (by simp [Malformation.isReported]) fun ⟨hbare, hne, _⟩ => ?_⟩
    · rw [hnil hbare] at hnamed
      obtain ⟨b, hb⟩ := hnamed
      exact hb.ne_nil rfl
    · rw [hnil hbare] at hne
      exact hne rfl
  rw [if_neg hblank]
  by_cases hbare : Bare token.toList
  · rw [if_neg (not_not.mpr (trimChars_eq_self_iff.mpr hbare)), and_iff_right hbare, and_iff_right hbare]
    unfold Named portText? unmarked
    cases Classify.reference? token.toList with
    | some sb => exact Classify.decides_named token sb.1 sb.2
    | none => exact Classify.decides_block token token.toList
  · rw [if_pos fun h => hbare (trimChars_eq_self_iff.mp h)]
    exact ⟨rfl, fun h => hbare h.1, iff_of_false (by simp [Malformation.isReported]) fun h => hbare h.1⟩

/-! ## Long numbers -/

/-- Whether no number in a text has too many digits to be read. -/
def ShortNumbers (cs : List Char) : Prop := ∀ ds, ds <:+: cs → (∀ c ∈ ds, isDigit c = true) → ds.length ≤ longest

theorem ShortNumbers.of_infix {cs ds : List Char} (h : ShortNumbers cs) (hds : ds <:+: cs) : ShortNumbers ds :=
  fun run hrun => h run (hrun.trans hds)

theorem ShortNumbers.of_length {cs : List Char} (h : cs.length ≤ longest) : ShortNumbers cs :=
  fun _ hds _ => hds.length_le.trans h

/-- An end of too many digits is a number of too many digits. -/
theorem LongItem.not_short {p : List Char} (h : LongItem p) : ¬ ShortNumbers p := fun hshort => by
  obtain ⟨ds, ⟨as, bs, hends, hlong⟩, hp⟩ := h
  have hds : ds <:+: p := by
    rcases hp with rfl | rfl
    · exact List.infix_rfl
    · exact (List.prefix_append _ _).isInfix
  have hshort := hshort.of_infix hds
  cases hends with
  | alone h =>
    have hle := hshort _ List.infix_rfl h.2
    omega
  | both ha hb =>
    have has := hshort _ (List.prefix_append _ _).isInfix ha.2
    have hbs := hshort _ ((List.suffix_cons _ _).trans (List.suffix_append _ _)).isInfix hb.2
    omega

theorem Halting.not_short {ps : List (List Char)} (h : Halting ps) : ∃ p ∈ ps, ¬ ShortNumbers p := by
  induction h with
  | here h => exact ⟨_, by simp, h.not_short⟩
  | there _ _ ih =>
    obtain ⟨p, hp, hlong⟩ := ih
    exact ⟨p, List.mem_cons_of_mem _ hp, hlong⟩

/-- Reading stops at long numbers only. -/
theorem Overrun.not_short {body : List Char} (h : Overrun body) : ¬ ShortNumbers body := fun hshort => by
  obtain ⟨-, cs, hcs, hhalts⟩ := h
  obtain ⟨p, hp, hlong⟩ := hhalts.not_short
  exact hlong (hshort.of_infix ((infix_of_mem_pieces hp).trans (suffix_of_after? hcs).isInfix))

theorem unmarked_suffix (cs : List Char) : unmarked cs <:+ cs := by
  unfold unmarked
  cases h : Classify.reference? cs with
  | none => exact List.suffix_rfl
  | some sb =>
    obtain ⟨space, body⟩ := sb
    rw [reference?_eq_some_iff.mp h]
    exact List.suffix_append _ _

theorem Overlong.not_short {token : String} (h : Overlong token) : ¬ ShortNumbers token.toList := fun hshort =>
  h.2.not_short (hshort.of_infix (unmarked_suffix _).isInfix)

/-- A number of too many digits behind a name makes the reading stop. -/
theorem overrun_of_long {name ds : List Char} (hne : name ≠ []) (hcolon : ':' ∉ name)
    (hds : ∀ c ∈ ds, isDigit c = true) (hlong : longest < ds.length) : Overrun (name ++ ':' :: ds) := by
  have hdigits : PortRange.Digits ds := ⟨fun hnil => by simp [hnil] at hlong, hds⟩
  have hcomma : ',' ∉ ds := fun hc => absurd (hds ',' hc) (by decide)
  refine ⟨by rwa [before_append hcolon], ds, after?_append hcolon ds, ?_⟩
  rw [pieces_of_not_mem hcomma]
  exact .here ⟨ds, ⟨ds, ds, .alone hdigits, .inl hlong⟩, .inl rfl⟩

theorem overlong_of_nines (space : Space) {name : List Char} (hne : name ≠ []) (hcolon : ':' ∉ name) {n : Nat}
    (h : longest < n) :
    Overlong (String.ofList (Classify.marker space ++ (name ++ ':' :: List.replicate n '9'))) := by
  unfold Overlong unmarked
  rw [String.toList_ofList, reference?_eq_some_iff.mpr rfl]
  refine ⟨fun c hc => ?_, overrun_of_long hne hcolon (fun c hc => List.eq_of_mem_replicate hc ▸ by decide) (by simpa)⟩
  rcases hc with hhead | hlast
  · cases space <;> cases hhead <;> decide
  · obtain ⟨k, rfl⟩ : ∃ k, n = k + 1 := ⟨n - 1, by omega⟩
    rw [List.replicate_succ', List.getLast?_append, List.getLast?_append, List.getLast?_cons, List.getLast?_concat] at hlast
    cases hlast
    decide

/-- A text is read if and only if it is in the grammar with a line break behind some ports. It
    makes the reading stop if and only if an end of a port has too many digits and everything
    before it is right. Otherwise the error names it. It is in the grammar as it is written down
    if no line break is in its port list. -/
theorem classify_accepts_iff (token : String) :
    ((∃ e, classify (.text token) = .ok e) ↔ Grammatical BrokenPort token) ∧
    ((∃ cause, cause.isReported = true ∧ classify (.text token) = .error ⟨token, cause⟩) ↔
      ¬ Grammatical BrokenPort token ∧ ¬ Overlong token) ∧
    ((∃ u, u.cause.isReported = false ∧ classify (.text token) = .error u) ↔ Overlong token) ∧
    ¬ (Overlong token ∧ ShortNumbers token.toList) ∧
    (Grammatical Port token ↔
      Grammatical BrokenPort token ∧ ∀ cs, portText? token.toList = some cs → '\n' ∉ cs) := by
  have hdecides := decides_classifyText token
  refine ⟨?_, ?_, ?_, fun h => h.1.not_short h.2, ?_⟩
  · show (∃ e, classifyText token = .ok e) ↔ _
    cases hc : classifyText token with
    | ok e => rw [hc] at hdecides; exact iff_of_true ⟨e, rfl⟩ hdecides.1
    | error u => rw [hc] at hdecides; exact iff_of_false (by simp) hdecides.2.1
  · show (∃ cause, _ ∧ classifyText token = .error ⟨token, cause⟩) ↔ _
    cases hc : classifyText token with
    | ok e => rw [hc] at hdecides; exact iff_of_false (by simp) fun h => h.1 hdecides.1
    | error u =>
      rw [hc] at hdecides
      obtain ⟨t, cause⟩ := u
      obtain ⟨rfl, hnot, hstops⟩ := hdecides
      rw [← hstops, and_iff_right hnot, Bool.not_eq_false]
      constructor
      · rintro ⟨_, hreported, ⟨⟩⟩
        exact hreported
      · exact fun hreported => ⟨cause, hreported, rfl⟩
  · show (∃ u, _ ∧ classifyText token = .error u) ↔ _
    cases hc : classifyText token with
    | ok e => rw [hc] at hdecides; exact iff_of_false (by simp) hdecides.2
    | error u =>
      rw [hc] at hdecides
      rw [← hdecides.2.2]
      constructor
      · rintro ⟨_, hreported, ⟨⟩⟩
        exact hreported
      · exact fun hreported => ⟨u, hreported, rfl⟩
  · unfold Grammatical
    rw [token_iff, token_iff, listed_port_iff, and_assoc, and_assoc]

/-- A list of two ports is read with a line break behind the first. -/
theorem a_broken_port_is_read :
    (∃ e, classify (.text "tag:a:80\n,443") = .ok e) ∧ ¬ Grammatical Port "tag:a:80\n,443" := by
  refine ⟨⟨_, rfl⟩, fun h => ?_⟩
  have hlisted := listed_port_iff.mp (token_iff.mp h.2).2
  exact absurd (hlisted.2 "80\n,443".toList (by decide)) (by decide)

end Portcullis
