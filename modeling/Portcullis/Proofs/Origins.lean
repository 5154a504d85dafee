/-
  Portcullis.Proofs.Origins — blocks and their keys, from the token to the declaration.

  The key of a block tells its kind and its address, and as an origin of traffic a block has its
  address only. Slots and graphs have one entry for each key, so no step confuses two blocks.
  - `value_of_block`: a slot holds a block that was added to it, under the key of the block.
  - `declaration_of_key`: what is declared under the key of a block has its address.
  - `keys_of_blocks`: so two blocks that were read have one key if and only if they have one kind
    and one address, and sources of two addresses stay two when they become origins.
-/

import Portcullis.Proofs.Declared
import Portcullis.Proofs.FailClosed
import Portcullis.Proofs.Hosts

namespace Portcullis

/-- A slot holds each lawful block that was added. -/
theorem Slot.Holds.value_of_block {slot : Slot} {es : List Endpoint} (h : slot.Holds es)
    (hl : ∀ x ∈ es, x.target.Lawful) {e : Endpoint} (he : e ∈ es) {role : Role} {name address : String}
    (ht : e.target = .block role name address) :
    ∃ x ∈ slot.values, slot.get? e.key = some x ∧ x.target = .block role name address := by
  obtain ⟨x, hx, hkey, hget⟩ := h.exists_value he
  have hkey : x.target.key = (Target.block role name address).key := hkey.trans (congrArg Target.key ht)
  exact ⟨x, hx, hget, Target.eq_of_key_block (h.lawful_value hl x hx) (ht ▸ hl e he) hkey⟩

/-- A token is read as a host or a network, which are no groups. -/
theorem isGroup_of_block {v : Value} {e : Endpoint} (hc : classify v = .ok e) {role : Role} {name address : String}
    (ht : e.target = .block role name address) : role.kind.isGroup = false := by
  obtain ⟨_, _, -, -, htarget⟩ := block_of_classify hc ht
  have hnetwork := (Classify.role_of_blockTarget htarget).2
  cases role with
  | host => rfl
  | network => rfl
  | origin => exact absurd (hnetwork.mpr (by decide)) (by decide)

namespace Graph

variable {g : Graph} {m : Membership} {o : Options} {out : Output}

/-- Under the key of a block its own declaration stands and nothing else. -/
theorem declaration_of_key (hg : g.Distinct) (hout : g.emit? (some m) o = some out) {role : Role}
    {name address : String} (hb : (Target.block role name address).Lawful) {x : Declaration} (hx : x ∈ out.declarations)
    (hkey : x.key = (Target.block role name address).key) :
    x = if role.kind.isGroup then .group { key := x.key, name, resources := [address] }
      else .resource { key := x.key, name, address, kind := role.kind } := by
  simp only [Output.declarations, List.mem_append, List.mem_map] at hx
  rcases hx with (⟨y, hy, rfl⟩ | ⟨y, hy, rfl⟩) | ⟨y, hy, rfl⟩
  · obtain ⟨k, n, hn, hgroup, hdecl⟩ := (mem_groups hout).mp hy
    obtain ⟨z, hz, hzk⟩ := groupDeclaration_isSome m k n
    obtain rfl : z = y := Option.some.inj (hz.symm.trans hdecl)
    obtain rfl : k = (Target.block role name address).key := hzk.symm.trans hkey
    have ht := hg.sound.target_of_key hb hn
    unfold Endpoint.isGroup at hgroup
    unfold groupDeclaration at hdecl
    rw [ht] at hgroup hdecl
    cases hdecl
    exact (if_pos hgroup).symm
  · obtain ⟨k, n, hn, hgroup, hdecl⟩ := (mem_resources hout).mp hy
    obtain ⟨z, hz, hzk⟩ := resourceDeclaration_isSome k hgroup
    obtain rfl : z = y := Option.some.inj (hz.symm.trans hdecl)
    obtain rfl : k = (Target.block role name address).key := hzk.symm.trans hkey
    have ht := hg.sound.target_of_key hb hn
    unfold Endpoint.isGroup at hgroup
    unfold resourceDeclaration at hdecl
    rw [ht] at hgroup hdecl
    cases hdecl
    have hgroup : role.kind.isGroup = false := hgroup
    rw [hgroup]
    rfl
  · -- The key of a policy begins like no other.
    obtain ⟨k, p, hp, rfl⟩ := (mem_policies hout).mp hy
    have hk : p.key = (Target.block role name address).key := hkey
    rw [hg.indexed.key hp] at hk
    subst hk
    exact absurd (hg.initial hp) (initial_key ⟨.block role name address, none, ""⟩)

end Graph

namespace Compiler

def origins (m : Membership) (declared : List String) (a : AccessRule) : Slot :=
  (originated (checked (some m) declared (classified (Rule.ofAccessRule a)).rule).rule).rule.sources

theorem target_asOrigin {e : Endpoint} {role : Role} {name address : String} (h : e.target = .block role name address) :
    (asOrigin e).target = .block .origin name address := by
  unfold asOrigin Endpoint.asOrigin?
  rw [h]
  rfl

/-- Each block among the sources is among them as an origin. -/
theorem origin_of_source (m : Membership) (declared : List String) {a : AccessRule} (hb : BriefRule a) {v : Value}
    (hv : v ∈ a.sources) {e : Endpoint} (hc : classify v = .ok e) {role : Role} {name address : String}
    (ht : e.target = .block role name address) :
    ∃ x, (origins m declared a).get? (asOrigin e).key = some x ∧ x.target = .block .origin name address := by
  obtain ⟨s, d, hs, -, hread⟩ := classified_eq (Rule.ofAccessRule a) rfl rfl (tractable_ofAccessRule hb).brief
  obtain ⟨s', hs', horigin⟩ := originated_eq { Rule.ofAccessRule a with sources := s, destinations := d }
  obtain ⟨y, hy, hget, hyt⟩ := hs.value_of_block lawful_of_mem_readable (mem_readable.mpr ⟨v, hv, hc⟩) ht
  have hkey : (asOrigin y).key = (asOrigin e).key := key_asOrigin_congr (hs.key hget)
  obtain ⟨x, -, hx, hxt⟩ := hs'.value_of_block (hs.lawful_origins lawful_of_mem_readable) (List.mem_map_of_mem hy)
    (target_asOrigin hyt)
  refine ⟨x, ?_, hxt⟩
  rw [← hkey, origins, hread, checked_eq, horigin]
  exact hx

/-- Blocks that are read from two tokens have one key if and only if they have one kind and one
    address, and as origins if and only if they have one address. So no rule whose reading comes
    to an end loses one of two sources, and what is declared under a key has the address of its
    block. -/
theorem keys_of_blocks {v w : Value} {e d : Endpoint} (hv : classify v = .ok e) (hw : classify w = .ok d)
    {role role' : Role} {name name' address address' : String} (he : e.target = .block role name address)
    (hd : d.target = .block role' name' address') :
    (e.key = d.key ↔ e.target.kind = d.target.kind ∧ address = address') ∧
    ((asOrigin e).key = (asOrigin d).key ↔ address = address') ∧
    (∀ m declared (a : AccessRule), BriefRule a → v ∈ a.sources → w ∈ a.sources →
      ∃ x y, (origins m declared a).get? (asOrigin e).key = some x ∧
        (origins m declared a).get? (asOrigin d).key = some y ∧
        x.target = .block .origin name address ∧ y.target = .block .origin name' address' ∧
        (x = y ↔ address = address')) ∧
    (∀ document o res out, (compile document o).1 = .ok res → res.output = some out → ∀ x ∈ out.declarations,
      (x.key = e.key → x = .resource { key := x.key, name, address, kind := e.target.kind }) ∧
      (x.key = (asOrigin e).key → x = .group { key := x.key, name, resources := [address] })) := by
  have hle : Target.Lawful (.block role name address) := he ▸ lawful_of_classify hv
  have hld : Target.Lawful (.block role' name' address') := hd ▸ lawful_of_classify hw
  have hoe : (asOrigin e).target = .block .origin name address := target_asOrigin he
  have hod : (asOrigin d).target = .block .origin name' address' := target_asOrigin hd
  have hloe : Target.Lawful (.block .origin name address) := hoe ▸ lawful_asOrigin (lawful_of_classify hv)
  have hlod : Target.Lawful (.block .origin name' address') := hod ▸ lawful_asOrigin (lawful_of_classify hw)
  have horigins : (asOrigin e).key = (asOrigin d).key ↔ address = address' := by
    rw [Endpoint.key, Endpoint.key, hoe, hod, Target.key_eq_iff_of_lawful hloe hlod]
    exact and_iff_right rfl
  refine ⟨?_, horigins, fun m declared a hb hva hwa => ?_, fun document o res out hres hout x hx => ?_⟩
  · rw [Endpoint.key, Endpoint.key, he, hd]
    exact Target.key_eq_iff_of_lawful hle hld
  · obtain ⟨x, hx, hxt⟩ := origin_of_source m declared hb hva hv he
    obtain ⟨y, hy, hyt⟩ := origin_of_source m declared hb hwa hw hd
    refine ⟨x, y, hx, hy, hxt, hyt, fun hxy => ?_, fun haddress => ?_⟩
    · rw [hxy, hyt] at hxt
      exact (Target.block.inj hxt).2.2.symm
    · rw [horigins.mpr haddress, hy] at hx
      exact (Option.some.inj hx).symm
  · have herrors : res.errors = [] := Classical.byContradiction fun h => by
      rw [(no_output_iff hres).mpr h] at hout
      cases hout
    obtain ⟨m, declared, ht⟩ := exists_tables hres herrors
    have hdistinct := distinct_graph (Membership.ofNames_of_ofTable ht.membership) (compile_spec ht hres).1
    have hemit := (output_eq ht hres herrors).symm.trans hout
    refine ⟨fun hkey => ?_, fun hkey => ?_⟩
    · rw [Endpoint.key, he] at hkey
      have hdeclared := Graph.declaration_of_key hdistinct hemit hle hx hkey
      rw [isGroup_of_block hv he] at hdeclared
      rw [he]
      exact hdeclared
    · rw [Endpoint.key, hoe] at hkey
      exact Graph.declaration_of_key hdistinct hemit hloe hx hkey

/-- A host, and the network around it; an octet of the host reads like its mask. -/
def twoBlocks : AccessRule :=
  { index := 2, action := .accept, sources := [.text "10.0.32.5:80", .text "10.0.32.5/24"], destinations := [.text "tag:t"] }

theorem keys_of_twoBlocks : ∃ x y, (origins noGroups [] twoBlocks).get? "net-res-to-group-10-0-32-5" = some x ∧
    (origins noGroups [] twoBlocks).get? "net-res-to-group-10-0-32-5-24" = some y ∧ x ≠ y ∧
    "host-10-0-32-5" ≠ "network-10-0-32-5-24" := by
  obtain ⟨hkeys, -, horigins, -⟩ :=
    keys_of_blocks (v := .text "10.0.32.5:80") (w := .text "10.0.32.5/24") rfl rfl rfl rfl
  obtain ⟨x, y, hx, hy, -, -, hxy⟩ :=
    horigins noGroups [] twoBlocks (by decide +kernel) (by simp [twoBlocks]) (by simp [twoBlocks])
  exact ⟨x, y, hx, hy, fun h => absurd (hxy.mp h) (by decide), fun h => absurd (hkeys.mp h).2 (by decide)⟩

end Compiler

end Portcullis
