/-
  Portcullis.Proofs.Keys — what the key of an endpoint tells about it.

  A key names the kind and the name (`key_eq_iff`). The name of a block is its text with
  hyphens for dots and slashes, and without the mask for a host. For blocks that were read
  from tokens (`Lawful`) nothing is lost by that: an address has three dots before its slash,
  so the fourth hyphen of a name was the slash, and a name with three hyphens is a host's.
  - `face_of_key`: lawful targets of one key are one target, but for the spelling of a name
    as a group or as a tag.
  - `key_eq_iff_of_lawful`: lawful blocks have one key if and only if they have one kind and one
    address, since the name is made from the address.
  - `lawful_of_classify`, `lawful_asOrigin`: what is read is lawful, also as an origin.
-/

import Portcullis.Membership
import Portcullis.Compiler.Verdict
import Portcullis.Proofs.Blocks

namespace Portcullis

open Portcullis.Text

/-! ## Kinds -/

theorem kind_of_text {k l : Kind} {m n : String} (h : Key.simple k.text m = Key.simple l.text n) :
    k = l ∧ m = n := by
  have hcs := congrArg String.toList h
  simp only [Key.simple, String.toList_append] at hcs
  cases k <;> cases l <;> simp [Kind.text] at hcs ⊢ <;> exact String.toList_injective hcs

/-- A key names the kind and the name. -/
theorem Target.key_eq_iff {t u : Target} : t.key = u.key ↔ t.kind = u.kind ∧ t.name = u.name :=
  ⟨kind_of_text, fun h => by unfold Target.key; rw [h.1, h.2]⟩

/-! ## Texts of blocks -/

structure Written (address mask : List Char) : Prop where
  dots : address.count '.' = 3
  plain : ∀ c ∈ address ++ mask, c ≠ '/' ∧ c ≠ '-'

theorem written_of_mask {n l : Nat} {m : List Char} (hm : Address.MaskOf l m) : Written (Address.dotted n) m where
  dots := Address.count_dotted n
  plain c hc := by
    rcases List.mem_append.mp hc with hc | hc
    · exact Address.plain_of_digits (Address.digits_of_dotted hc)
    · exact Address.plain_of_digits (Address.digits_of_mask hm hc)

/-- The text of a block with a slash is an address and a mask. -/
theorem Block.Denotes.written {cs : List Char} {b : Block} (h : Block.Denotes cs b) (hs : '/' ∈ cs) :
    ∃ address mask, cs = address ++ '/' :: mask ∧ Written address mask := by
  cases h with
  | single hn => exact absurd hs (Address.slash_not_mem_dotted _)
  | masked hn hm => exact ⟨_, _, rfl, written_of_mask hm⟩

/-- Two cuts of one text at a character, with as many of it before either cut, are one. -/
theorem cut_unique {c : Char} {a b r s : List Char} (hc : a.count c = b.count c) (h : a ++ c :: r = b ++ c :: s) :
    a = b ∧ r = s := by
  induction a generalizing b with
  | nil =>
    cases b with
    | nil => simpa using h
    | cons y b =>
      simp only [List.nil_append, List.cons_append, List.cons.injEq] at h
      rw [← h.1] at hc
      simp at hc
  | cons x a ih =>
    cases b with
    | nil =>
      simp only [List.nil_append, List.cons_append, List.cons.injEq] at h
      rw [h.1] at hc
      simp at hc
    | cons y b =>
      simp only [List.cons_append, List.cons.injEq] at h
      obtain ⟨rfl, h⟩ := h
      have hc' : a.count c = b.count c := by simpa [List.count_cons] using hc
      obtain ⟨rfl, rfl⟩ := ih hc' h
      exact ⟨rfl, rfl⟩

/-! ## Names of blocks -/

namespace Classify

def singleMask : List Char := ['3', '2']

/-- A block is read as it stands or with the mask of a single address. -/
theorem parse_completed (cs : List Char) : Block.parse (completed cs) = Block.parse cs := by
  unfold completed
  split
  · rfl
  · rename_i hslash
    have hslash : '/' ∉ cs := fun h => hslash (List.contains_iff_mem.mpr h)
    have hmask : Address.mask ['3', '2'] = .ok 32 := rfl
    unfold Block.parse
    rw [single, pieces_append hslash, pieces_of_not_mem hslash, pieces_of_not_mem (by decide)]
    simp only [hmask]
    cases Address.number cs <;> rfl

theorem slash_mem_completed (cs : List Char) : '/' ∈ completed cs := by
  unfold completed
  split
  · rename_i h
    exact List.contains_iff_mem.mp h
  · simp [single]

theorem completed_of_mem {cs : List Char} (h : '/' ∈ cs) : completed cs = cs := if_pos (List.contains_iff_mem.mpr h)

theorem denotes_completed_iff {cs : List Char} {b : Block} : Block.Denotes (completed cs) b ↔ Block.Denotes cs b := by
  rw [← Block.parse_eq_ok_iff, parse_completed, Block.parse_eq_ok_iff]

theorem addressName_dot (cs : List Char) : addressName ('.' :: cs) = '-' :: addressName cs := rfl

theorem addressName_plain {c : Char} (hd : c ≠ '.') (hs : c ≠ '/') (cs : List Char) :
    addressName (c :: cs) = c :: addressName cs := by
  simp [addressName, hd, hs]

theorem addressName_append (a b : List Char) : addressName (a ++ b) = addressName a ++ addressName b :=
  List.map_append ..

theorem addressName_cut (address mask : List Char) :
    addressName (address ++ '/' :: mask) = addressName address ++ '-' :: addressName mask := by
  rw [addressName_append]; rfl

/-- Dots become hyphens, and there are no others. -/
theorem count_addressName {cs : List Char} (h : ∀ c ∈ cs, c ≠ '/' ∧ c ≠ '-') :
    (addressName cs).count '-' = cs.count '.' := by
  induction cs with
  | nil => rfl
  | cons c cs ih =>
    have hc := h c (by simp)
    have ih := ih fun d hd => h d (by simp [hd])
    by_cases hd : c = '.'
    · subst hd
      rw [addressName_dot, List.count_cons_self, List.count_cons_self, ih]
    · rw [addressName_plain hd hc.1, List.count_cons_of_ne hc.2, List.count_cons_of_ne hd, ih]

theorem addressName_injective {as bs : List Char} (ha : ∀ c ∈ as, c ≠ '/' ∧ c ≠ '-')
    (hb : ∀ c ∈ bs, c ≠ '/' ∧ c ≠ '-')
    (h : addressName as = addressName bs) : as = bs := by
  induction as generalizing bs with
  | nil => cases bs <;> simp_all [addressName]
  | cons a as ih =>
    cases bs with
    | nil => simp [addressName] at h
    | cons b bs =>
      have h1 := ha a (by simp)
      have h2 := hb b (by simp)
      have ih := @ih bs (fun c hc => ha c (by simp [hc])) (fun c hc => hb c (by simp [hc]))
      by_cases ea : a = '.'
      · by_cases eb : b = '.'
        · subst ea eb
          rw [ih (List.cons.inj h).2]
        · rw [ea, addressName_dot, addressName_plain eb h2.1] at h
          exact absurd (List.cons.inj h).1.symm h2.2
      · rw [addressName_plain ea h1.1] at h
        by_cases eb : b = '.'
        · rw [eb, addressName_dot] at h
          exact absurd (List.cons.inj h).1 h1.2
        · rw [addressName_plain eb h2.1] at h
          rw [(List.cons.inj h).1, ih (List.cons.inj h).2]

theorem hostName_single (address : List Char) : hostName (address ++ single) = addressName address := by
  have hn : addressName (address ++ single) = addressName address ++ ['-', '3', '2'] := by
    rw [addressName_append]; rfl
  have hs : ['-', '3', '2'].isSuffixOf (addressName address ++ ['-', '3', '2']) = true :=
    List.isSuffixOf_iff_suffix.mpr (List.suffix_append _ _)
  simp only [hostName, hn, hs, if_true, List.length_append, List.length_cons, List.length_nil]
  simp

/-- Whether a text ends in the mask of a single address. -/
theorem isSuffixOf_cut {address mask : List Char} (hw : Written address mask) :
    single.isSuffixOf (address ++ '/' :: mask) = true ↔ mask = singleMask := by
  constructor
  · intro h
    obtain ⟨x, hx⟩ := List.isSuffixOf_iff_suffix.mp h
    have hnot : ∀ cs : List Char, (∀ c ∈ cs, c ≠ '/' ∧ c ≠ '-') → cs.count '/' = 0 := fun cs hcs =>
      List.count_eq_zero.mpr fun hm => (hcs _ hm).1 rfl
    have ha := hnot address fun c hc => hw.plain c (List.mem_append_left _ hc)
    have hm := hnot mask fun c hc => hw.plain c (List.mem_append_right _ hc)
    have hxc : x.count '/' = 0 := by
      have := congrArg (List.count '/') hx
      simpa [single, ha, hm] using this
    exact (cut_unique (hxc.trans ha.symm) hx).2.symm
  · intro heq
    rcases heq with rfl
    exact List.isSuffixOf_iff_suffix.mpr (List.suffix_append _ _)

end Classify

/-! ## Targets -/

namespace Target

/-- A target without the spelling of a name as a group or as a tag. -/
def face : Target → Target
  | .named _ n => .named .group n
  | t => t

/-- A block as it was read: the name is made from the text, and a single address is a host or
    an origin, anything else a network or an origin. -/
inductive Lawful : Target → Prop
  | named (space : Space) (name : String) : Lawful (.named space name)
  | single {role : Role} {address : List Char} (hw : Written address Classify.singleMask) (hr : role ≠ .network) :
      Lawful (.block role (String.ofList (Classify.addressName address))
        (String.ofList (address ++ '/' :: Classify.singleMask)))
  | wide {role : Role} {address mask : List Char} (hw : Written address mask) (hm : mask ≠ Classify.singleMask)
      (hr : role ≠ .host) :
      Lawful (.block role (String.ofList (Classify.addressName (address ++ '/' :: mask)))
        (String.ofList (address ++ '/' :: mask)))

/-- Lawful targets of one key are one target, but for the spelling of a name. -/
theorem face_of_key {t u : Target} (ht : Lawful t) (hu : Lawful u) (h : t.key = u.key) : t.face = u.face := by
  obtain ⟨hk, hn⟩ := key_eq_iff.mp h
  have role : ∀ {r q : Role}, r.kind = q.kind → r = q := fun {r q} e => by cases r <;> cases q <;> simp_all [Role.kind]
  have hyphens : ∀ {address mask : List Char}, Written address mask →
      (Classify.addressName address).count '-' = 3 := fun hw =>
    (Classify.count_addressName fun c hc => hw.plain c (List.mem_append_left _ hc)).trans hw.dots
  have more : ∀ {address mask : List Char}, Written address mask →
      (Classify.addressName (address ++ '/' :: mask)).count '-' ≠ 3 := by
    intro address mask hw
    rw [Classify.addressName_cut, List.count_append, hyphens hw, List.count_cons_self]; omega
  have address : ∀ {a m a' m' : List Char}, Written a m → Written a' m' →
      Classify.addressName a = Classify.addressName a' → a = a' := fun hw hw' =>
    Classify.addressName_injective (fun c hc => hw.plain c (List.mem_append_left _ hc))
      fun c hc => hw'.plain c (List.mem_append_left _ hc)
  cases ht with
  | named s n =>
    cases hu with
    | named s' n' => exact congrArg (Target.named .group) hn
    | single _ _ => rename_i r _ _ _; cases r <;> cases hk
    | wide _ _ _ => rename_i r _ _ _ _ _; cases r <;> cases hk
  | @single r a hw hr =>
    cases hu with
    | named s' n' => cases r <;> cases hk
    | @single r' a' hw' hr' =>
      rw [role hk, address hw hw' (String.ofList_injective hn)]
    | wide hw' _ _ => exact absurd (congrArg (List.count '-') (String.ofList_injective hn) ▸ hyphens hw) (more hw')
  | @wide r a m hw hm hr =>
    cases hu with
    | named s' n' => cases r <;> cases hk
    | single hw' _ => exact absurd (congrArg (List.count '-') (String.ofList_injective hn).symm ▸ hyphens hw') (more hw)
    | @wide r' a' m' hw' hm' hr' =>
      have hcut := String.ofList_injective hn
      rw [Classify.addressName_cut, Classify.addressName_cut] at hcut
      obtain ⟨h1, h2⟩ := cut_unique ((hyphens hw).trans (hyphens hw').symm) hcut
      have hm : m = m' := Classify.addressName_injective (fun c hc => hw.plain c (List.mem_append_right _ hc))
        (fun c hc => hw'.plain c (List.mem_append_right _ hc)) h2
      rw [role hk, address hw hw' h1, hm]

/-- The key of a lawful block is that of no other target. -/
theorem eq_of_key_block {t : Target} (ht : Lawful t) {role : Role} {name address : String}
    (hb : Lawful (.block role name address)) (h : t.key = (Target.block role name address).key) :
    t = .block role name address := by
  have hface := face_of_key ht hb h
  cases t with
  | named space n => cases hface
  | block r n a => exact hface

/-- The name of a block is made from its address. -/
theorem Lawful.name_eq {role : Role} {name address : String} (h : Lawful (.block role name address)) :
    name = (Classify.blockTarget address.toList).name := by
  cases h with
  | single hw hr =>
    rw [String.toList_ofList, Classify.blockTarget, if_pos ((Classify.isSuffixOf_cut hw).mpr rfl)]
    exact congrArg String.ofList (Classify.hostName_single _).symm
  | wide hw hm hr =>
    rw [String.toList_ofList, Classify.blockTarget, if_neg fun h => hm ((Classify.isSuffixOf_cut hw).mp h)]
    rfl

/-- Blocks have one key if and only if they have one kind and one address. -/
theorem key_eq_iff_of_lawful {role role' : Role} {name name' address address' : String}
    (h : Lawful (.block role name address)) (h' : Lawful (.block role' name' address')) :
    (Target.block role name address).key = (Target.block role' name' address').key ↔
      role.kind = role'.kind ∧ address = address' := by
  constructor
  · intro hkey
    obtain ⟨rfl, rfl, rfl⟩ := Target.block.inj (eq_of_key_block h h' hkey)
    exact ⟨rfl, rfl⟩
  · rintro ⟨hkind, rfl⟩
    exact key_eq_iff.mpr ⟨hkind, h.name_eq.trans h'.name_eq.symm⟩

/-- The text of a block tells a host from a network. -/
theorem Lawful.role_iff {role : Role} {name address : String} (h : Lawful (.block role name address))
    (hr : role ≠ .origin) : role = .host ↔ Classify.single.isSuffixOf address.toList = true := by
  cases h with
  | single hw hrole =>
    rw [String.toList_ofList, Classify.isSuffixOf_cut hw]
    cases role <;> simp_all
  | wide hw hm hrole =>
    rw [String.toList_ofList, Classify.isSuffixOf_cut hw]
    simp [hm, hrole]

end Target

/-! ## What is read is lawful -/

theorem lawful_of_named {token : String} {space : Space} {body : List Char} {e : Endpoint}
    (h : Classify.named token space body = .ok e) : ∃ n, e.target = .named space n := by
  obtain ⟨-, ports, -, rfl⟩ := Classify.named_eq_ok_iff.mp h
  exact ⟨_, rfl⟩

theorem lawful_blockTarget {cs : List Char} {b : Block} (h : Block.Denotes cs b) :
    (Classify.blockTarget (Classify.completed cs)).Lawful := by
  obtain ⟨a, m, hcs, hw⟩ := (Classify.denotes_completed_iff.mpr h).written (Classify.slash_mem_completed cs)
  rw [hcs]
  unfold Classify.blockTarget
  by_cases hm : m = Classify.singleMask
  · subst hm
    rw [if_pos ((Classify.isSuffixOf_cut hw).mpr rfl)]
    have : Classify.hostName (a ++ '/' :: Classify.singleMask) = Classify.addressName a := Classify.hostName_single a
    rw [this]
    exact .single hw (by decide)
  · rw [if_neg (fun e => hm ((Classify.isSuffixOf_cut hw).mp e))]
    exact .wide hw hm (by decide)

/-- A token is read as a reference, or as the block before its first colon. -/
theorem named_or_block {v : Value} {e : Endpoint} (h : classify v = .ok e) :
    (∃ token space body, Classify.named token space body = .ok e) ∨
      ∃ s cs b, v = .text s ∧ cs = before ':' s.toList ∧ Block.Denotes cs b ∧
        e.target = Classify.blockTarget (Classify.completed cs) := by
  obtain ⟨s, rfl, -, -, ⟨space, body, -, hnamed⟩ | ⟨-, hblock⟩⟩ := classify_eq_ok_iff.mp h
  · exact .inl ⟨_, space, body, hnamed⟩
  · obtain ⟨-, ports, b, -, hb, rfl⟩ := Classify.block_eq_ok_iff.mp hblock
    rw [Classify.parse_completed] at hb
    exact .inr ⟨s, _, b, rfl, rfl, Block.parse_eq_ok_iff.mp hb, rfl⟩

/-- A token of a block has the text of that block before its first colon. -/
theorem block_of_classify {v : Value} {e : Endpoint} (h : classify v = .ok e) {role : Role} {name address : String}
    (ht : e.target = .block role name address) :
    ∃ s b, v = .text s ∧ Block.Denotes (before ':' s.toList) b ∧
      Classify.blockTarget (Classify.completed (before ':' s.toList)) = .block role name address := by
  rcases named_or_block h with ⟨_, _, _, hnamed⟩ | ⟨s, cs, b, hs, rfl, hb, htarget⟩
  · obtain ⟨n, hn⟩ := lawful_of_named hnamed
    rw [hn] at ht
    cases ht
  · exact ⟨s, b, hs, hb, htarget.symm.trans ht⟩

/-- A member of a group is read as a reference, without ports. -/
theorem named_of_classifyMember {v : Value} {e : Endpoint} (h : classifyMember v = .ok e) :
    ∃ token space body d, Classify.named token space body = .ok d ∧ e = d.withPorts none := by
  have dropped : ∀ {token space body}, (Classify.named token space body).map (·.withPorts none) = .ok e →
      ∃ token space body d, Classify.named token space body = .ok d ∧ e = d.withPorts none := by
    intro token space body h
    cases hn : Classify.named token space body with
    | error u => rw [hn] at h; cases h
    | ok d =>
      rw [hn] at h
      cases h
      exact ⟨_, _, _, d, hn, rfl⟩
  cases v with
  | text s =>
    simp only [classifyMember, classifyMemberText] at h
    split at h
    · cases h
    · exact dropped h
  | _ => cases h

theorem lawful_of_classify {v : Value} {e : Endpoint} (h : classify v = .ok e) : e.target.Lawful := by
  rcases named_or_block h with ⟨_, _, _, hnamed⟩ | ⟨_, _, b, _, _, hb, ht⟩
  · obtain ⟨n, hn⟩ := lawful_of_named hnamed
    rw [hn]
    exact .named _ _
  · rw [ht]
    exact lawful_blockTarget hb

theorem lawful_asOrigin {e : Endpoint} (h : e.target.Lawful) : (Compiler.asOrigin e).target.Lawful := by
  obtain ⟨t, p, s⟩ := e
  cases h with
  | named s n => exact .named _ _
  | single hw _ => exact .single hw (by decide)
  | wide hw hm _ => exact .wide hw hm (by decide)

end Portcullis
