/-
  Portcullis.Proofs.Blocks — the texts of blocks of addresses.

  An address has 32 bits, and its text is unique: four numbers below 256 in decimal, with dots
  between them. A length has several masks: its decimal, also behind zeros, the netmask and the
  hostmask, of which two are the netmasks of other lengths.
  - `number_eq_ok_iff`, `mask_eq_ok_iff`: an address is read from its dotted text and from no
    other, a length from its masks and from no other text.
  - `parse_eq_ok_iff`: so the texts that are read as a block are those that denote it.
  - `existsUnique_contains_iff`: a block holds one address only if it fixes all bits.
-/

import Mathlib.Logic.ExistsUnique
import Portcullis.Address
import Portcullis.Proofs.Numeral

namespace Portcullis

open Portcullis.Text Portcullis.Number

namespace Address

/-! ## Dotted texts -/

def quad (n : Nat) : List Nat := [n / 256 / 256 / 256, n / 256 / 256 % 256, n / 256 % 256, n % 256]

def dotted (n : Nat) : List Char := join '.' ((quad n).map (Nat.toDigits 10))

/-- An octet is a number below 256 in decimal. -/
theorem octet_eq_ok_iff {cs : List Char} {n : Nat} : octet cs = .ok n ↔ n < 256 ∧ cs = Nat.toDigits 10 n := by
  constructor
  · intro h
    simp only [octet] at h
    split at h
    · cases h
    split at h
    · cases h
    split at h
    · cases h
    split at h
    · cases h
    split at h
    · cases h
    rename_i hne hdigits _ hzero hsmall
    cases h
    have hdigit : ∀ c ∈ cs, c.isDigit = true := by simpa [isAsciiDigit_eq] using hdigits
    refine ⟨by omega, ?_⟩
    by_cases hz : cs = ['0']
    · subst hz
      decide
    have hhead : cs.head? ≠ some '0' := by simpa [hz] using hzero
    cases cs with
    | nil => exact absurd rfl hne
    | cons c cs => exact (toDigits_digitsValue hdigit (by simpa using hhead)).symm
  · rintro ⟨hn, rfl⟩
    have hshape : ∀ n, n < 256 → (Nat.toDigits 10 n).length ≤ 3 ∧
        (Nat.toDigits 10 n = ['0'] ∨ (Nat.toDigits 10 n).head? ≠ some '0') := by decide +kernel
    obtain ⟨hlen, hzero⟩ := hshape n hn
    have hdigits : (Nat.toDigits 10 n).all isAsciiDigit = true := List.all_eq_true.mpr fun c hc =>
      isDigit_of_mem_toDigits hc
    simp only [octet]
    rw [if_neg Nat.toDigits_ne_nil, if_neg (by simp [hdigits]), if_neg (by omega),
      if_neg (by rcases hzero with h | h <;> simp [h]), digitsValue_toDigits, if_neg (by omega)]

theorem octets_eq_ok_iff {ps : List (List Char)} {n m : Nat} : octets n ps = .ok m ↔
    ∃ ds : List Nat, (∀ d ∈ ds, d < 256) ∧ ps = ds.map (Nat.toDigits 10) ∧
      m = ds.foldl (fun n d => 256 * n + d) n := by
  induction ps generalizing n with
  | nil =>
    simp only [octets, Except.ok.injEq, List.nil_eq, List.map_eq_nil_iff]
    exact ⟨fun h => ⟨[], by simp, rfl, h.symm⟩, fun ⟨ds, _, hds, hm⟩ => by subst hds; exact hm.symm⟩
  | cons p ps ih =>
    constructor
    · intro h
      simp only [octets] at h
      split at h
      · cases h
      · rename_i d hd
        obtain ⟨hlt, rfl⟩ := octet_eq_ok_iff.mp hd
        obtain ⟨ds, hds, rfl, hm⟩ := ih.mp h
        exact ⟨d :: ds, by simpa [hlt] using hds, rfl, hm⟩
    · rintro ⟨ds, hds, hps, hm⟩
      cases ds with
      | nil => cases hps
      | cons d ds =>
        obtain ⟨rfl, rfl⟩ := List.cons.inj hps
        simp only [octets, octet_eq_ok_iff.mpr ⟨hds d (by simp), rfl⟩]
        exact ih.mpr ⟨ds, fun x hx => hds x (by simp [hx]), rfl, hm⟩

theorem value_quad (n : Nat) : (quad n).foldl (fun n d => 256 * n + d) 0 = n := by
  simp only [quad, List.foldl_cons, List.foldl_nil]
  omega

/-- Four numbers below 256 are the octets of one address. -/
theorem exists_quad {ds : List Nat} (hlen : ds.length = 4) (h : ∀ d ∈ ds, d < 256) :
    ∃ n, n < Nat.pow 2 32 ∧ ds = quad n := by
  match ds, hlen with
  | [a, b, c, d], _ =>
    have ha := h a (by simp)
    have hb := h b (by simp)
    have hc := h c (by simp)
    have hd := h d (by simp)
    refine ⟨256 * (256 * (256 * a + b) + c) + d, ?_, ?_⟩
    · show _ < 4294967296
      omega
    · simp only [quad, List.cons.injEq, and_true]
      omega

theorem quad_lt {n : Nat} (h : n < Nat.pow 2 32) : ∀ d ∈ quad n, d < 256 := by
  have h : n < 4294967296 := h
  simp only [quad, List.mem_cons, List.not_mem_nil, or_false]
  omega

theorem pieces_dotted (n : Nat) : pieces '.' (dotted n) = (quad n).map (Nat.toDigits 10) := by
  refine pieces_join (by simp [quad]) fun p hp => ?_
  obtain ⟨d, -, rfl⟩ := List.mem_map.mp hp
  exact not_mem_toDigits (by decide) d

theorem count_dotted (n : Nat) : (dotted n).count '.' = 3 := by
  have h := length_pieces '.' (dotted n)
  rw [pieces_dotted, List.length_map, quad] at h
  exact Nat.succ.inj h.symm

/-- An address is read from its dotted text and from no other. -/
theorem number_eq_ok_iff {cs : List Char} {n : Nat} : number cs = .ok n ↔ n < Nat.pow 2 32 ∧ cs = dotted n := by
  constructor
  · intro h
    simp only [number] at h
    split at h
    · cases h
    split at h
    · cases h
    rename_i hlen
    cases ho : octets 0 (pieces '.' cs) with
    | error e => rw [ho] at h; cases h
    | ok m =>
      rw [ho] at h
      cases h
      obtain ⟨ds, hds, hps, hm⟩ := octets_eq_ok_iff.mp ho
      have hlength : ds.length = 4 := by simpa [hps] using hlen
      obtain ⟨k, hk, rfl⟩ := exists_quad hlength hds
      rw [value_quad] at hm
      subst hm
      exact ⟨hk, by rw [dotted, ← hps, join_pieces]⟩
  · rintro ⟨hn, rfl⟩
    have hne : dotted n ≠ [] := fun h => by simpa [h, pieces, quad] using congrArg List.length (pieces_dotted n)
    have ho : octets 0 (pieces '.' (dotted n)) = .ok n :=
      octets_eq_ok_iff.mpr ⟨quad n, quad_lt hn, pieces_dotted n, (value_quad n).symm⟩
    simp only [number]
    rw [if_neg hne, if_neg (by simp [pieces_dotted, quad]), ho]
    rfl

/-! ## Masks -/

/-- The number of 32 bits that starts with `length` zeros and goes on with ones. -/
def hostmask (length : Nat) : Nat := Nat.pow 2 (32 - length) - 1

/-- The texts of a length: its decimal, also behind zeros as long as it can be read, its netmask,
    and its hostmask unless that is the netmask of another length. -/
inductive MaskOf (l : Nat) : List Char → Prop
  | bits (zeros : Nat) (h : l ≤ 32) (hlong : zeros + (Nat.toDigits 10 l).length ≤ longest) :
      MaskOf l (List.replicate zeros '0' ++ Nat.toDigits 10 l)
  | netmask (h : l ≤ 32) : MaskOf l (dotted (netmask l))
  | hostmask (hpos : 0 < l) (h : l < 32) : MaskOf l (dotted (hostmask l))

theorem masks_lt {l : Nat} (h : l ≤ 32) : netmask l < Nat.pow 2 32 ∧ hostmask l < Nat.pow 2 32 := by
  have hall : ∀ l, l < 33 → netmask l < Nat.pow 2 32 ∧ hostmask l < Nat.pow 2 32 := by decide +kernel
  exact hall l (by omega)

theorem maskLength?_netmask {l : Nat} (h : l ≤ 32) : maskLength? (netmask l) = some l := by
  have hall : ∀ l, l < 33 → maskLength? (netmask l) = some l := by decide +kernel
  exact hall l (by omega)

theorem maskLength?_hostmask {l : Nat} (hpos : 0 < l) (h : l < 32) : maskLength? (hostmask l) = some l := by
  have hall : ∀ l, l < 32 → 0 < l → maskLength? (hostmask l) = some l := by decide +kernel
  exact hall l h hpos

/-- The bits of a netmask the other way round are the hostmask. -/
theorem netmask_add_hostmask {l : Nat} (h : l ≤ 32) : netmask l + hostmask l = Nat.pow 2 32 - 1 := by
  have hall : ∀ l, l < 33 → netmask l + hostmask l = Nat.pow 2 32 - 1 := by decide +kernel
  exact hall l (by omega)

theorem mask_of_maskLength? {n l : Nat} (hn : n < Nat.pow 2 32) (h : maskLength? n = some l) :
    (l ≤ 32 ∧ n = netmask l) ∨ (0 < l ∧ l < 32 ∧ n = hostmask l) := by
  rcases Option.or_eq_some_iff.mp h with hnet | ⟨hnot, hhost⟩
  · have hl : l < 33 := List.mem_range.mp (List.mem_of_find?_eq_some hnet)
    have hnl : netmask l = n := by simpa using List.find?_some hnet
    exact .inl ⟨by omega, hnl.symm⟩
  · have hl : l < 33 := List.mem_range.mp (List.mem_of_find?_eq_some hhost)
    have hsum := netmask_add_hostmask (show l ≤ 32 by omega)
    have hnl : netmask l = Nat.pow 2 32 - 1 - n := by simpa using List.find?_some hhost
    have heq : n = hostmask l := by omega
    -- The hostmasks of the two ends are netmasks, and those are tried first.
    have hends : ∀ k ∈ lengths, n ≠ netmask k := by
      simpa [eq_comm] using List.find?_eq_none.mp hnot
    refine .inr ⟨Nat.pos_of_ne_zero ?_, Nat.lt_of_le_of_ne (by omega) ?_, heq⟩
    · rintro rfl
      exact hends 32 (by decide) (heq.trans (by decide))
    · rintro rfl
      exact hends 0 (by decide) (heq.trans (by decide))

theorem dot_mem_dotted (n : Nat) : '.' ∈ dotted n := by
  simp [dotted, quad, join]

theorem mask_zeros {k l : Nat} (h : l ≤ 32) (hlong : k + (Nat.toDigits 10 l).length ≤ longest) :
    mask (List.replicate k '0' ++ Nat.toDigits 10 l) = .ok l := by
  have hvalue : digitsValue (List.replicate k '0' ++ Nat.toDigits 10 l) = l := by
    rw [digitsValue_zeros, digitsValue_toDigits]
  have hdigits : (List.replicate k '0' ++ Nat.toDigits 10 l).all isAsciiDigit = true := by
    refine List.all_eq_true.mpr fun c hc => ?_
    rcases List.mem_append.mp hc with hc | hc
    · rw [List.eq_of_mem_replicate hc]
      decide
    · exact isDigit_of_mem_toDigits hc
  simp only [mask]
  rw [if_pos (by simp [hdigits, hvalue, h, hlong, Nat.toDigits_ne_nil]), hvalue]

/-- A dotted text is no number of bits, so it is read as a netmask or a hostmask. -/
theorem mask_dotted {n l : Nat} (hn : n < Nat.pow 2 32) (h : maskLength? n = some l) : mask (dotted n) = .ok l := by
  have hdigits : (dotted n).all isAsciiDigit ≠ true := fun h =>
    absurd (List.all_eq_true.mp h _ (dot_mem_dotted n)) (by decide)
  simp only [mask]
  rw [if_neg (by simp [hdigits]), number_eq_ok_iff.mpr ⟨hn, rfl⟩]
  simp only [h, Option.elim_some]

/-- A length is read from its masks and from no other text. -/
theorem mask_eq_ok_iff {cs : List Char} {l : Nat} : mask cs = .ok l ↔ MaskOf l cs := by
  constructor
  · intro h
    simp only [mask] at h
    split at h
    · rename_i hcond
      simp only [ne_eq, decide_not, Bool.and_eq_true, Bool.not_eq_true', decide_eq_false_iff_not,
        List.all_eq_true, decide_eq_true_eq] at hcond
      obtain ⟨⟨⟨hne, hdigits⟩, hlong⟩, hle⟩ := hcond
      cases h
      have hdigits : ∀ c ∈ cs, c.isDigit = true := hdigits
      obtain ⟨k, hk⟩ := exists_zeros hdigits hne
      have hlength := congrArg List.length hk
      rw [List.length_append, List.length_replicate] at hlength
      have hbits := MaskOf.bits k hle (hlength ▸ hlong)
      rwa [← hk] at hbits
    split at h
    · cases h
    rename_i n hn
    obtain ⟨hlt, rfl⟩ := number_eq_ok_iff.mp hn
    cases hl : maskLength? n with
    | none => rw [hl] at h; cases h
    | some k =>
      rw [hl] at h
      cases h
      rcases mask_of_maskLength? hlt hl with ⟨hle, rfl⟩ | ⟨hpos, hle, rfl⟩
      · exact .netmask hle
      · exact .hostmask hpos hle
  · rintro (⟨k, hle, hlong⟩ | hle | ⟨hpos, hlt⟩)
    · exact mask_zeros hle hlong
    · exact mask_dotted (masks_lt hle).1 (maskLength?_netmask hle)
    · exact mask_dotted (masks_lt (by omega)).2 (maskLength?_hostmask hpos hlt)

theorem digits_of_dotted {n : Nat} {c : Char} (h : c ∈ dotted n) : c.isDigit = true ∨ c = '.' := by
  by_cases hdot : c = '.'
  · exact .inr hdot
  obtain ⟨p, hp, hcp⟩ := exists_mem_pieces h hdot
  rw [pieces_dotted] at hp
  obtain ⟨d, -, rfl⟩ := List.mem_map.mp hp
  exact .inl (isDigit_of_mem_toDigits hcp)

theorem digits_of_mask {l : Nat} {m : List Char} (h : MaskOf l m) {c : Char} (hc : c ∈ m) :
    c.isDigit = true ∨ c = '.' := by
  cases h with
  | bits k hle hlong =>
    rcases List.mem_append.mp hc with hc | hc
    · exact .inl (by rw [List.eq_of_mem_replicate hc]; decide)
    · exact .inl (isDigit_of_mem_toDigits hc)
  | netmask hle => exact digits_of_dotted hc
  | hostmask hpos hlt => exact digits_of_dotted hc

/-- Digits and dots are neither slashes nor hyphens. -/
theorem plain_of_digits {c : Char} (h : c.isDigit = true ∨ c = '.') : c ≠ '/' ∧ c ≠ '-' := by
  refine ⟨?_, ?_⟩ <;> (rintro rfl; exact absurd h (by decide))

theorem slash_not_mem_dotted (n : Nat) : '/' ∉ dotted n := fun h => (plain_of_digits (digits_of_dotted h)).1 rfl

theorem slash_not_mem_mask {l : Nat} {m : List Char} (hm : MaskOf l m) : '/' ∉ m := fun h =>
  (plain_of_digits (digits_of_mask hm h)).1 rfl

end Address

/-! ## Blocks -/

namespace Block

open Address

inductive Denotes : List Char → Block → Prop
  | single {n : Nat} (h : n < Nat.pow 2 32) : Denotes (dotted n) ⟨n, 32⟩
  | masked {n l : Nat} {m : List Char} (h : n < Nat.pow 2 32) (hm : MaskOf l m) : Denotes (dotted n ++ '/' :: m) ⟨n, l⟩

theorem pieces_masked {n l : Nat} {m : List Char} (h : MaskOf l m) : pieces '/' (dotted n ++ '/' :: m) = [dotted n, m] := by
  rw [pieces_append (slash_not_mem_dotted n), pieces_of_not_mem (slash_not_mem_mask h)]

/-- The texts that are read as a block are those that denote it. -/
theorem parse_eq_ok_iff {cs : List Char} {b : Block} : parse cs = .ok b ↔ Denotes cs b := by
  constructor
  · intro h
    have hcs := join_pieces '/' cs
    unfold parse at h
    split at h
    · rename_i a m hpieces
      rw [hpieces] at hcs
      subst hcs
      cases ha : number a with
      | error e => rw [ha] at h; cases h
      | ok n =>
        cases hm : mask m with
        | error e => rw [ha, hm] at h; cases h
        | ok l =>
          rw [ha, hm] at h
          cases h
          obtain ⟨hn, rfl⟩ := number_eq_ok_iff.mp ha
          exact .masked hn (mask_eq_ok_iff.mp hm)
    · rename_i a hpieces
      rw [hpieces] at hcs
      have hcs : a = cs := hcs
      subst hcs
      cases ha : number a with
      | error e => rw [ha] at h; cases h
      | ok n =>
        rw [ha] at h
        cases h
        obtain ⟨hn, rfl⟩ := number_eq_ok_iff.mp ha
        exact .single hn
    · cases h
  · rintro (hn | ⟨hn, hm⟩)
    · unfold parse
      rw [pieces_of_not_mem (slash_not_mem_dotted _)]
      simp only [number_eq_ok_iff.mpr ⟨hn, rfl⟩, Except.map]
    · unfold parse
      rw [pieces_masked hm]
      simp only [number_eq_ok_iff.mpr ⟨hn, rfl⟩, mask_eq_ok_iff.mpr hm, Except.map]

theorem Denotes.ne_nil {cs : List Char} {b : Block} (h : Denotes cs b) : cs ≠ [] := by
  rintro rfl
  generalize hcs : ([] : List Char) = cs at h
  cases h with
  | single hn => exact absurd (dot_mem_dotted _) (hcs ▸ List.not_mem_nil)
  | masked hn hm => simp at hcs

/-- The texts of blocks are of digits, dots and slashes. -/
theorem Denotes.digits {cs : List Char} {b : Block} (h : Denotes cs b) :
    ∀ c ∈ cs, c.isDigit = true ∨ c = '.' ∨ c = '/' := by
  intro c hc
  refine or_assoc.mp ?_
  cases h with
  | single hn => exact .inl (digits_of_dotted hc)
  | masked hn hm =>
    rcases List.mem_append.mp hc with hc | hc
    · exact .inl (digits_of_dotted hc)
    · rcases List.mem_cons.mp hc with rfl | hc
      · exact .inr rfl
      · exact .inl (digits_of_mask hm hc)

/-! ## The addresses of a block -/

/-- A block holds the addresses that share its leading bits. -/
def Contains (b : Block) (n : Nat) : Prop := n < Nat.pow 2 32 ∧ n / b.size = b.address / b.size

/-- A block is one address only if it fixes all bits. -/
theorem existsUnique_contains_iff {b : Block} (hn : b.address < Nat.pow 2 32) (hl : b.length ≤ 32) :
    (∃! n, b.Contains n) ↔ b.length = 32 := by
  constructor
  · rintro ⟨k, -, hunique⟩
    rcases Nat.eq_or_lt_of_le hl with heq | hlt
    · exact heq
    -- Otherwise the block starts with two addresses.
    have hsplit : Nat.pow 2 32 = b.size * Nat.pow 2 b.length :=
      (congrArg (Nat.pow 2) (show 32 = 32 - b.length + b.length by omega)).trans (Nat.pow_add ..)
    have htwo : 2 ≤ b.size := Nat.le_self_pow (by omega) 2
    have hq : b.address / b.size < Nat.pow 2 b.length := Nat.div_lt_of_lt_mul (hsplit ▸ hn)
    have hroom : b.size * (b.address / b.size) + b.size ≤ Nat.pow 2 32 := by
      rw [hsplit, ← Nat.mul_succ]
      exact Nat.mul_le_mul_left b.size hq
    have hfirst := hunique (b.size * (b.address / b.size))
      ⟨by omega, Nat.mul_div_cancel_left _ (by omega)⟩
    have hone : 1 / b.size = 0 := Nat.div_eq_of_lt htwo
    have hsecond := hunique (b.size * (b.address / b.size) + 1)
      ⟨by omega, by rw [Nat.mul_add_div (by omega), hone, Nat.add_zero]⟩
    omega
  · intro heq
    have hsize : b.size = 1 := by rw [size, heq]
    exact ⟨b.address, ⟨hn, rfl⟩, fun n h => by simpa [hsize] using h.2⟩

theorem Denotes.bounds {cs : List Char} {b : Block} (h : Denotes cs b) : b.address < Nat.pow 2 32 ∧ b.length ≤ 32 := by
  cases h with
  | single hn => exact ⟨hn, Nat.le_refl 32⟩
  | masked hn hm =>
    refine ⟨hn, ?_⟩
    cases hm with
    | bits k hle => exact hle
    | netmask hle => exact hle
    | hostmask hpos hlt => exact Nat.le_of_lt hlt

end Block
end Portcullis
