/-
  Portcullis.Proofs.NormalForm — the text that an endpoint is written as.

  Tokens in many spellings are read as the same participant: an address with or without its
  mask, a name with asterisks, ports in any digits and order. A participant has one text, though
  (`Endpoint.normalText`): its name with the marker, or its block with the mask, then its ports,
  with an asterisk for all of them.
  - `classify_normalText`: this text is read as the participant that it was made from.
  - `same_iff_normalText`: so two tokens are read as the same participant if and only if the
    texts of what is read agree.
-/

import Portcullis.Proofs.PortLists
import Portcullis.Proofs.Verdicts

namespace Portcullis

open Portcullis.Text

/-! ## Blanks around a text -/

/-- No script has a digit among the blanks. -/
theorem not_blank_of_isDigit {c : Char} (h : isDigit c = true) : isBlank c = false := by
  have hapart : ∀ z ∈ zeroDigits, ∀ r ∈ blankRanges, z + 10 ≤ r.1 ∨ r.2 < z := by decide
  obtain ⟨d, hd⟩ := Option.isSome_iff_exists.mp h
  obtain ⟨z, hz, -⟩ := Option.map_eq_some_iff.mp hd
  have hrun := List.find?_some hz
  rw [isBlank, inRanges, List.any_eq_false]
  intro r hr
  have := hapart z (List.mem_of_find?_eq_some hz) r hr
  simp only [Bool.and_eq_true, decide_eq_true_eq] at hrun ⊢
  omega

theorem bare_cut {front back : List Char} (hne : front ≠ []) (hfront : ∀ c, front.head? = some c → isBlank c = false)
    (hback : ∀ c ∈ back, isBlank c = false) : Bare (front ++ ':' :: back) := by
  rintro c (hc | hc)
  · rw [List.head?_append_of_ne_nil front hne] at hc
    exact hfront c hc
  · rw [List.getLast?_append_of_ne_nil front (List.cons_ne_nil ':' back)] at hc
    rcases List.mem_cons.mp (List.mem_of_getLast? hc) with rfl | hc
    · decide
    · exact hback c hc

/-! ## The text of a restriction -/

namespace Ports

def normalText : Ports → List Char
  | none => ['*']
  | some l => listText l

variable {p : Ports}

theorem parse?_normalText (h : Canonical p) : parse? (some p.normalText) = .ok p := by
  cases p with
  | none => rfl
  | some l => exact parse?_listText h

theorem not_blank_normalText (h : Canonical p) : ∀ c ∈ p.normalText, isBlank c = false := by
  intro c hc
  cases p with
  | none =>
    obtain rfl := List.mem_singleton.mp hc
    decide
  | some l =>
    obtain ⟨rs, -, -, rfl⟩ := h l rfl
    by_cases hcomma : c = ','
    · rw [hcomma]
      decide
    obtain ⟨cs, hcs, hc⟩ := exists_mem_of_mem_join hc hcomma
    obtain ⟨t, ht, rfl⟩ := List.mem_map.mp hcs
    obtain ⟨r, -, rfl⟩ := List.mem_map.mp ht
    rcases r.ends_of_text.plain hc with hdigit | rfl
    · exact not_blank_of_isDigit hdigit
    · decide

end Ports

/-! ## The text of an endpoint -/

def Target.normalText : Target → List Char
  | .named space name => Classify.marker space ++ name.toList
  | .block _ _ address => address.toList

def Endpoint.normalText (e : Endpoint) : String := String.ofList (e.target.normalText ++ ':' :: e.ports.normalText)

namespace Classify

theorem normalText_blockTarget (address : List Char) : (blockTarget address).normalText = address := by
  unfold blockTarget
  split <;> exact String.toList_ofList

/-- The asterisks of a name are spelled out, and no colon comes in. -/
theorem plain_name (body : List Char) :
    '*' ∉ replace '*' star (before ':' body) ∧ ':' ∉ replace '*' star (before ':' body) := by
  simp only [mem_replace_iff]
  constructor
  · rintro (⟨-, hnew⟩ | ⟨-, hne⟩)
    · exact absurd hnew (by decide)
    · exact hne rfl
  · rintro (⟨-, hnew⟩ | ⟨hold, -⟩)
    · exact absurd hnew (by decide)
    · exact not_mem_before ':' body hold

end Classify

open Classify

variable {e f : Endpoint} {ports : Ports}

/-- A text that no blank surrounds is read as a reference if it has a marker, and as a block if
    it has none. -/
theorem classify_of_bare {token : String} (hne : token.toList ≠ []) (hbare : Bare token.toList)
    (h : (∃ space body, reference? token.toList = some (space, body) ∧ named token space body = .ok e) ∨
      (reference? token.toList = none ∧ block token token.toList = .ok e)) : classify (.text token) = .ok e := by
  have htrim := trimChars_eq_self_iff.mpr hbare
  exact classify_eq_ok_iff.mpr ⟨token, rfl, htrim.symm ▸ hne, htrim, h⟩

theorem classify_name {space : Space} {name : List Char} (hne : name ≠ []) (hstar : '*' ∉ name) (hcolon : ':' ∉ name)
    (hports : ports.Canonical) {token : String}
    (htoken : token.toList = (marker space ++ name) ++ ':' :: ports.normalText) :
    classify (.text token) = .ok ⟨.named space (String.ofList name), ports, token⟩ := by
  have hhead : ∀ c, (marker space ++ name).head? = some c → isBlank c = false := by
    cases space <;> (intro c hc; cases hc; decide)
  refine classify_of_bare (by simp [htoken]) ?_ (.inl ⟨space, name ++ ':' :: ports.normalText, ?_, ?_⟩)
  · rw [htoken]
    exact bare_cut (by simp [hne]) hhead (Ports.not_blank_normalText hports)
  · rw [htoken, List.append_assoc]
    exact reference?_eq_some_iff.mpr rfl
  · rw [named_eq_ok_iff, before_append hcolon, after?_append hcolon, replace_of_not_mem hstar]
    exact ⟨hne, ports, Ports.parse?_normalText hports, rfl⟩

theorem classify_address {address : List Char} {b : Block} (hb : Block.Denotes address b) (hslash : '/' ∈ address)
    (hports : ports.Canonical) {token : String} (htoken : token.toList = address ++ ':' :: ports.normalText) :
    classify (.text token) = .ok ⟨blockTarget address, ports, token⟩ := by
  obtain ⟨hunmarked, hcolon⟩ := unmarked_of_denotes hb (':' :: ports.normalText)
  have hhead : ∀ c, address.head? = some c → isBlank c = false := by
    intro c hc
    rcases hb.digits c (List.mem_of_head? hc) with hdigit | rfl | rfl
    · exact not_blank_of_isDigit (Number.isDigit_of_ascii hdigit)
    · decide
    · decide
  refine classify_of_bare (by simp [htoken]) ?_ (.inr ⟨?_, ?_⟩)
  · rw [htoken]
    exact bare_cut hb.ne_nil hhead (Ports.not_blank_normalText hports)
  · rw [htoken]
    exact hunmarked
  · rw [htoken, block_eq_ok_iff, before_append hcolon, after?_append hcolon, completed_of_mem hslash]
    exact ⟨hb.ne_nil, ports, b, Ports.parse?_normalText hports, Block.parse_eq_ok_iff.mpr hb, rfl⟩

/-- The text of a participant that was read is read as this participant. -/
theorem classify_normalText {v : Value} (h : classify v = .ok e) :
    classify (.text e.normalText) = .ok { e with token := e.normalText } := by
  have hports := Compiler.canonical_of_classify h
  obtain ⟨token, -, -, -, ⟨space, body, -, hnamed⟩ | ⟨-, hblock⟩⟩ := classify_eq_ok_iff.mp h
  · obtain ⟨hne, ports, -, rfl⟩ := named_eq_ok_iff.mp hnamed
    obtain ⟨hstar, hcolon⟩ := plain_name body
    refine classify_name (replace_ne_nil (by decide) hne) hstar hcolon hports ?_
    simp only [Endpoint.normalText, Target.normalText, String.toList_ofList]
  · obtain ⟨-, ports, b, -, hb, rfl⟩ := block_eq_ok_iff.mp hblock
    refine classify_address (Block.parse_eq_ok_iff.mp hb) (slash_mem_completed _) hports ?_
    simp only [Endpoint.normalText, normalText_blockTarget, String.toList_ofList]

theorem Endpoint.same_iff : e.same f = true ↔ e.target = f.target ∧ e.ports = f.ports := by
  simp only [same, Bool.and_eq_true, decide_eq_true_eq]

/-- Participants that were read are the same if and only if their texts are. -/
theorem same_iff_normalText {v w : Value} (he : classify v = .ok e) (hf : classify w = .ok f) :
    e.same f = true ↔ e.normalText = f.normalText := by
  rw [Endpoint.same_iff]
  constructor
  · rintro ⟨htarget, hports⟩
    rw [Endpoint.normalText, Endpoint.normalText, htarget, hports]
  · intro htext
    have hread := (classify_normalText he).symm.trans (htext ▸ classify_normalText hf)
    simp only [Except.ok.injEq, Endpoint.mk.injEq] at hread
    exact ⟨hread.1, hread.2.1⟩

/-- The text of what is read of a token is read as the same, and tells it from everything else
    that is read. -/
theorem normal_form_of_tokens {v w : Value} (he : classify v = .ok e) (hf : classify w = .ok f) :
    classify (.text e.normalText) = .ok { e with token := e.normalText } ∧
      (e.same f = true ↔ e.normalText = f.normalText) :=
  ⟨classify_normalText he, same_iff_normalText he hf⟩

/-- A tag with an asterisk and two scattered ports, and the same with everything spelled out. -/
theorem normal_form_of_star :
    ∃ e f : Endpoint, classify (.text "tag:a*:080,22") = .ok e ∧ classify (.text "tag:astar:22,80") = .ok f ∧ e ≠ f ∧
      e.normalText = "tag:astar:22,80" ∧
      classify (.text e.normalText) = .ok { e with token := e.normalText } ∧
      (e.same f = true ↔ e.normalText = f.normalText) := by
  have he : classify (.text "tag:a*:080,22") =
      .ok ⟨.named .tag "astar", some ["22", "80"], "tag:a*:080,22"⟩ := by decide +kernel
  have hf : classify (.text "tag:astar:22,80") =
      .ok ⟨.named .tag "astar", some ["22", "80"], "tag:astar:22,80"⟩ := by decide +kernel
  exact ⟨_, _, he, hf, by decide, by decide +kernel, normal_form_of_tokens he hf⟩

end Portcullis
