/-
  Portcullis.Proofs.Hosts — which blocks are hosts.

  Whether a block is a host is told by the end of its text, not by its length. The two agree
  unless a mask of 32 bits is written with zeros before it or as a netmask (`Disguised`).
  - `host_iff_of_classify`: a host is a block of one address whose mask is not disguised, and
    what is not a host is a network.
  - `a_network_of_one_address`: so some networks are single addresses.
-/

import Portcullis.Proofs.Keys

namespace Portcullis

open Portcullis.Text

/-- The masks of 32 bits that do not say so in two digits. -/
inductive Disguise : List Char → Prop
  | zeros (k : Nat) : Disguise (List.replicate (k + 1) '0' ++ Classify.singleMask)
  | netmask : Disguise "255.255.255.255".toList

def Disguised (cs : List Char) : Prop := ∃ m, after? '/' cs = some m ∧ Disguise m

theorem Disguise.ne_singleMask {m : List Char} (h : Disguise m) : m ≠ Classify.singleMask := by
  cases h with
  | zeros k => exact fun heq => by simpa [Classify.singleMask] using congrArg List.length heq
  | netmask => decide

theorem disguise_of_maskOf {m : List Char} (h : Address.MaskOf 32 m) : m = Classify.singleMask ∨ Disguise m := by
  generalize hl : 32 = l at h
  cases h with
  | bits k hle hlong =>
    subst hl
    cases k with
    | zero => exact .inl rfl
    | succ k => exact .inr (.zeros k)
  | netmask hle =>
    subst hl
    exact .inr .netmask
  | hostmask hpos hlt => omega

theorem length_of_singleMask {l : Nat} (h : Address.MaskOf l Classify.singleMask) : l = 32 := by
  have hread : Address.mask Classify.singleMask = .ok 32 := rfl
  exact Except.ok.inj ((Address.mask_eq_ok_iff.mpr h).symm.trans hread)

/-- The text of a block is completed to one that ends like a host's, if it is of one address and
    does not disguise that. -/
theorem single_suffix_iff {cs : List Char} {b : Block} (h : Block.Denotes cs b) :
    Classify.single.isSuffixOf (Classify.completed cs) = true ↔ b.length = 32 ∧ ¬ Disguised cs := by
  cases h with
  | @single n hn =>
    have hslash := Address.slash_not_mem_dotted n
    have hnone : ¬ Disguised (Address.dotted n) := fun ⟨m, hm, _⟩ => by
      rw [after?_eq_none_iff.mpr hslash] at hm
      cases hm
    have hcompleted : Classify.completed (Address.dotted n) = Address.dotted n ++ Classify.single := by
      rw [Classify.completed, if_neg fun hc => hslash (List.contains_iff_mem.mp hc)]
    rw [hcompleted]
    exact iff_of_true (List.isSuffixOf_iff_suffix.mpr (List.suffix_append _ _)) ⟨rfl, hnone⟩
  | @masked n l m hn hm =>
    have hafter := after?_append (Address.slash_not_mem_dotted n) m
    have hcompleted : Classify.completed (Address.dotted n ++ '/' :: m) = Address.dotted n ++ '/' :: m := by
      rw [Classify.completed, if_pos (List.contains_iff_mem.mpr (by simp))]
    rw [hcompleted, Classify.isSuffixOf_cut (written_of_mask hm)]
    constructor
    · rintro rfl
      refine ⟨length_of_singleMask hm, fun ⟨m, heq, hd⟩ => hd.ne_singleMask ?_⟩
      exact Option.some.inj (heq.symm.trans hafter)
    · rintro ⟨rfl, hnot⟩
      exact (disguise_of_maskOf hm).resolve_right fun hd => hnot ⟨m, hafter, hd⟩

theorem Classify.role_of_blockTarget {cs : List Char} {role : Role} {name address : String}
    (h : blockTarget cs = .block role name address) :
    (role = .host ↔ single.isSuffixOf cs = true) ∧ (role = .network ↔ role ≠ .host) := by
  unfold blockTarget at h
  split at h
  · rename_i hsuffix
    cases h
    exact ⟨iff_of_true rfl hsuffix, by simp⟩
  · rename_i hsuffix
    cases h
    exact ⟨iff_of_false (by simp) hsuffix, by simp⟩

/-- A block that is read from a token denotes one block. It is a host if that is one address and
    its mask is not disguised, and a network otherwise. -/
theorem host_iff_of_classify {token : String} {e : Endpoint} (h : classify (.text token) = .ok e)
    {role : Role} {name address : String} (ht : e.target = .block role name address) :
    ∃ b : Block, (∀ c, Block.Denotes (before ':' token.toList) c ↔ c = b) ∧
      ((∃! n, b.Contains n) ↔ b.length = 32) ∧
      (role = .host ↔ (∃! n, b.Contains n) ∧ ¬ Disguised (before ':' token.toList)) ∧
      (role = .network ↔ role ≠ .host) := by
  obtain ⟨s, b, hs, hb, htarget⟩ := block_of_classify h ht
  obtain rfl : token = s := Value.text.inj hs
  have hunique : ∀ c, Block.Denotes (before ':' token.toList) c ↔ c = b := fun c =>
    ⟨fun hc => Except.ok.inj ((Block.parse_eq_ok_iff.mpr hc).symm.trans (Block.parse_eq_ok_iff.mpr hb)),
      fun hc => hc ▸ hb⟩
  have hone := Block.existsUnique_contains_iff hb.bounds.1 hb.bounds.2
  obtain ⟨hhost, hnetwork⟩ := Classify.role_of_blockTarget htarget
  refine ⟨b, hunique, hone, ?_, hnetwork⟩
  rw [hhost, single_suffix_iff hb, hone]

theorem host_of_bare_address : ∃ e, classify (.text "10.0.0.5:22") = .ok e ∧
    e.target = .block .host "10-0-0-5" "10.0.0.5/32" ∧ ∃ b : Block,
      (∀ c, Block.Denotes "10.0.0.5".toList c ↔ c = b) ∧ (∃! n, b.Contains n) := by
  have hread : classify (.text "10.0.0.5:22") =
      .ok ⟨.block .host "10-0-0-5" "10.0.0.5/32", some ["22"], "10.0.0.5:22"⟩ := rfl
  obtain ⟨b, hunique, -, hhost, -⟩ := host_iff_of_classify hread rfl
  exact ⟨_, hread, rfl, b, hunique, (hhost.mp rfl).1⟩

/-- An address behind a netmask of all bits is read as a network. -/
theorem a_network_of_one_address : ∃ e b, classify (.text "10.0.0.5/255.255.255.255") = .ok e ∧
    e.target.kind = .network ∧ Block.Denotes "10.0.0.5/255.255.255.255".toList b ∧ ∃! n, b.Contains n :=
  ⟨_, ⟨167772165, 32⟩, rfl, rfl, Block.parse_eq_ok_iff.mp rfl,
    (Block.existsUnique_contains_iff (by decide) (by decide)).mpr rfl⟩

end Portcullis
