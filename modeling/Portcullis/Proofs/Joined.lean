/-
  Portcullis.Proofs.Joined — what the key of a policy tells about its sides.

  A digest hashes the keys of a side put together without a separator, and the name of a group
  is any text without a colon, so the name of one group can hold the key of another.
  - `joined_injective`: texts of whole keys (`Whole`) can be taken apart again. A key that
    continues another is a group whose name goes on with something that another key begins with
    (`Begins`), and that is what a whole key does not.
  - `composite_eq_iff`: so the key of a policy tells the keys on its sides, if they are whole and
    the hash does not collide on the two texts of a side.
  - `two_groups_as_one`: a group that is named by two others has the text of both.
-/

import Portcullis.Proofs.Edges
import Portcullis.Proofs.Keys
import Portcullis.Proofs.Storing

namespace Portcullis.Key

open Portcullis.Text
open Portcullis.Compiler (asOrigin)

/-! ## Keys of endpoints -/

inductive Canonical : String → Prop
  | token {v : Value} {e : Endpoint} (h : classify v = .ok e) : Canonical e.key
  | member {v : Value} {e : Endpoint} (h : classifyMember v = .ok e) : Canonical e.key
  | origin {v : Value} {e : Endpoint} (h : classify v = .ok e) : Canonical (asOrigin e).key

def mark (k : Kind) : List Char := k.text.toList ++ ['-']

def originStart : List Char := "net-res-to-".toList

inductive Begins : List Char → Prop
  | key {k : String} (h : Canonical k) (rest : List Char) : Begins (k.toList ++ rest)
  | group (rest : List Char) : Begins (mark .group ++ rest)
  | origin : Begins originStart

/-- A key is whole if it is not the key of a group whose name goes on, behind its first
    character, with something that another key may begin with. -/
def Whole (k : String) : Prop :=
  ∀ name rest, k.toList = mark .group ++ name ++ rest → name ≠ [] → ¬ Begins rest

def Figure (c : Char) : Prop := isAsciiDigit c = true ∨ c = '-'

structure Shaped (k : List Char) (kind : Kind) (name : List Char) : Prop where
  text : k = mark kind ++ name
  group : kind = .group → name ≠ []
  block : kind ≠ .group → ∀ c ∈ name, Figure c

theorem toList_key (t : Target) : t.key.toList = mark t.kind ++ t.name.toList := by
  simp [Target.key, simple, mark]

theorem shaped_of_named {token : String} {space : Space} {body : List Char} {e : Endpoint}
    (h : Classify.named token space body = .ok e) : ∃ name, Shaped e.key.toList .group name := by
  obtain ⟨hne, ports, -, rfl⟩ := Classify.named_eq_ok_iff.mp h
  refine ⟨_, toList_key _, fun _ => ?_, fun hk => absurd rfl hk⟩
  rw [Target.name, String.toList_ofList]
  exact replace_ne_nil (by decide) hne

theorem figures_of_denotes {cs : List Char} {b : Block} (h : Block.Denotes cs b) :
    ∀ c ∈ Classify.addressName cs, Figure c := by
  intro c hc
  obtain ⟨d, hd, rfl⟩ := List.mem_map.mp hc
  have hdigit := h.digits d hd
  split
  · exact .inr rfl
  · rename_i hne
    simp only [Bool.or_eq_true, decide_eq_true_eq, not_or] at hne
    exact .inl (hdigit.resolve_right fun hor => hor.elim hne.1 hne.2)

theorem figures_of_blockTarget {cs : List Char} {b : Block} (h : Block.Denotes cs b) :
    ∀ c ∈ (Classify.blockTarget (Classify.completed cs)).name.toList, Figure c := by
  intro c hc
  refine figures_of_denotes (Classify.denotes_completed_iff.mpr h) c ?_
  unfold Classify.blockTarget at hc
  split at hc
  · rw [Target.name, String.toList_ofList] at hc
    simp only [Classify.hostName] at hc
    split at hc
    · exact List.mem_of_mem_take hc
    · exact hc
  · simpa [Target.name] using hc

theorem shaped_of_classify {v : Value} {e : Endpoint} (h : classify v = .ok e) :
    ∃ kind name, Shaped e.key.toList kind name := by
  rcases named_or_block h with ⟨_, _, _, hnamed⟩ | ⟨_, cs, b, _, _, hb, ht⟩
  · exact ⟨_, shaped_of_named hnamed⟩
  · refine ⟨_, _, toList_key _, fun hk => ?_, fun _ => ht ▸ figures_of_blockTarget hb⟩
    rw [ht] at hk
    unfold Classify.blockTarget at hk
    split at hk <;> cases hk

theorem shaped_of_origin {v : Value} {e : Endpoint} (h : classify v = .ok e) :
    ∃ kind name, Shaped (asOrigin e).key.toList kind name := by
  obtain ⟨t, p, token⟩ := e
  cases t with
  | named space name =>
    obtain ⟨kind, name', hshaped⟩ := shaped_of_classify h
    exact ⟨kind, name', hshaped⟩
  | block role name address =>
    have hfigures : ∀ c ∈ name.toList, Figure c := by
      obtain ⟨s, b, -, hb, ht⟩ := block_of_classify h rfl
      have hname : (Classify.blockTarget (Classify.completed (before ':' s.toList))).name = name := congrArg Target.name ht
      exact hname ▸ figures_of_blockTarget hb
    exact ⟨.origin, name.toList, toList_key _, nofun, fun _ => hfigures⟩

theorem shaped_of_member {v : Value} {e : Endpoint} (h : classifyMember v = .ok e) :
    ∃ kind name, Shaped e.key.toList kind name := by
  obtain ⟨token, space, body, d, hd, rfl⟩ := named_of_classifyMember h
  obtain ⟨name, hname⟩ := shaped_of_named hd
  exact ⟨_, name, hname⟩

/-- Every key has this shape. -/
theorem Canonical.shaped {k : String} (h : Canonical k) : ∃ kind name, Shaped k.toList kind name := by
  cases h with
  | token h => exact shaped_of_classify h
  | member h => exact shaped_of_member h
  | origin h => exact shaped_of_origin h

/-! ## Where a key can begin -/

def openers : List Char := ['g', 'h', 'n']

def Opens (cs : List Char) : Prop := ∃ c ∈ openers, cs.head? = some c

theorem Shaped.opens {k name : List Char} {kind : Kind} (h : Shaped k kind name) (r : List Char) : Opens (k ++ r) := by
  rw [h.text]
  cases kind <;> exact ⟨_, by decide, rfl⟩

theorem Figure.not_opener {c : Char} (h : Figure c) : c ∉ openers := by
  intro hc
  simp only [openers, List.mem_cons, List.not_mem_nil, or_false] at hc
  rcases hc with rfl | rfl | rfl <;> rcases h with h | h <;> exact absurd h (by decide)

/-- Inside the mark of a kind, another key could begin only with the mark of a group in the mark
    of an origin. -/
theorem split_mark {kind : Kind} {u v : List Char} (h : mark kind = u ++ v) (hu : u ≠ []) (hv : Opens v) :
    u = originStart := by
  have hsplits : ∀ i ∈ List.range (mark kind).length, i ≠ 0 →
      openers.all (fun c => ((mark kind).drop i).head? = some c → (mark kind).take i = originStart) = true := by
    cases kind <;> decide
  obtain ⟨c, hc, hhead⟩ := hv
  have hlength : u.length < (mark kind).length := by
    rw [h, List.length_append]
    cases v with
    | nil => cases hhead
    | cons => simp
  have hcut := of_decide_eq_true
    (List.all_eq_true.mp (hsplits u.length (List.mem_range.mpr hlength) (mt List.length_eq_zero_iff.mp hu)) c hc)
  rw [h, List.drop_left, List.take_left] at hcut
  exact hcut hhead

/-- Inside a key, another one could begin only in the name of a group, or there. -/
theorem Shaped.split {k name : List Char} {kind : Kind} (h : Shaped k kind name) {u v : List Char} (hk : k = u ++ v)
    (hu : u ≠ []) (hv : Opens v) : (∃ front, u = mark .group ++ front) ∨ u = originStart := by
  have hfigures : ∀ w, v = w → kind ≠ .group → ¬ ∀ c ∈ w, Figure c := by
    rintro _ rfl - hall
    obtain ⟨c, hc, hhead⟩ := hv
    exact (hall c (List.mem_of_head? hhead)).not_opener hc
  rcases List.append_eq_append_iff.mp (h.text ▸ hk : mark kind ++ name = u ++ v) with
    ⟨front, rfl, hname⟩ | ⟨back, hmark, hback⟩
  · by_cases hkind : kind = .group
    · exact .inl ⟨front, hkind ▸ rfl⟩
    · refine absurd (fun c hc => h.block hkind c ?_) (hfigures v rfl hkind)
      exact hname ▸ List.mem_append_right _ hc
  · cases back with
    | nil =>
      rw [List.append_nil] at hmark
      rw [List.nil_append] at hback
      by_cases hkind : kind = .group
      · exact .inl ⟨[], by rw [← hmark, hkind, List.append_nil]⟩
      · exact absurd (h.block hkind) (hfigures name hback hkind)
    | cons c back =>
      refine .inr (split_mark hmark hu ?_)
      obtain ⟨d, hd, hhead⟩ := hv
      rw [hback] at hhead
      exact ⟨d, hd, hhead⟩

theorem Shaped.ne_originStart {k name : List Char} {kind : Kind} (h : Shaped k kind name) : k ≠ originStart := by
  intro heq
  have hmark : mark kind = originStart.take (mark kind).length := by rw [← heq, h.text, List.take_left]
  cases kind <;> exact absurd hmark (by decide)

/-- Only the key of a group begins with the mark of one, and its name is not empty. -/
theorem Shaped.front_ne_nil {k name front : List Char} {kind : Kind} (h : Shaped k kind name)
    (hk : k = mark .group ++ front) : front ≠ [] := by
  rw [h.text] at hk
  have hhead : (mark kind).head? = (mark .group).head? := by
    have hheads := congrArg List.head? hk
    rwa [List.head?_append, List.head?_append, Option.or_of_isSome (by simp [mark]),
      Option.or_of_isSome (by simp [mark])] at hheads
  cases kind with
  | group => exact List.append_cancel_left hk ▸ h.group rfl
  | host | network | origin => exact absurd hhead (by decide)

/-! ## Keys put together -/

def joined (ks : List String) : List Char := ks.flatMap String.toList

theorem toList_digestInput (ks : List String) : (digestInput ks).toList = joined (sorted ks) := by
  have hjoin : ∀ ks : List String, ("".intercalate ks).toList = joined ks := by
    intro ks
    induction ks with
    | nil => rfl
    | cons k ks ih =>
      cases ks with
      | nil => simp [joined]
      | cons l ks => rw [String.intercalate_cons_cons, String.toList_append, ih]; simp [joined]
  exact hjoin _

theorem opens_joined {ks : List String} (h : ∀ k ∈ ks, Canonical k) (hne : joined ks ≠ []) : Opens (joined ks) := by
  cases ks with
  | nil => exact absurd rfl hne
  | cons k ks =>
    obtain ⟨kind, name, hk⟩ := (h k List.mem_cons_self).shaped
    exact hk.opens _

theorem Opens.of_append {u v : List Char} (h : Opens (u ++ v)) (hu : u ≠ []) : Opens u := by
  obtain ⟨c, hc, hhead⟩ := h
  obtain ⟨d, r, rfl⟩ := List.exists_cons_of_ne_nil hu
  exact ⟨c, hc, hhead⟩

/-- A whole key is no continuation of another, if what follows are keys in either case. -/
theorem rest_eq_nil {a b : String} {as bs : List String} (ha : Canonical a) (hb : Whole b) (hb' : Canonical b)
    (has : ∀ k ∈ as, Canonical k) (hbs : ∀ k ∈ bs, Canonical k) {rest : List Char} (h : b.toList = a.toList ++ rest)
    (hrest : joined as = rest ++ joined bs) : rest = [] := by
  refine Classical.byContradiction fun hne => ?_
  have hopens : Opens rest := (hrest ▸ opens_joined has (by simp [hrest, hne])).of_append hne
  obtain ⟨akind, aname, hashape⟩ := ha.shaped
  obtain ⟨bkind, bname, hbshape⟩ := hb'.shaped
  -- The key that is continued is that of a group, since something begins behind it.
  obtain ⟨name, hname⟩ : ∃ name, a.toList = mark .group ++ name :=
    (hbshape.split h (by rw [hashape.text]; simp [mark]) hopens).resolve_right hashape.ne_originStart
  refine hb name rest (hname ▸ h) (hashape.front_ne_nil hname) ?_
  -- What follows the shorter key begins with a key; the longer one holds it, or ends inside.
  cases as with
  | nil => exact absurd (List.append_eq_nil_iff.mp hrest.symm).1 hne
  | cons c as =>
    have hc := has c List.mem_cons_self
    obtain ⟨ckind, cname, hcshape⟩ := hc.shaped
    rcases List.append_eq_append_iff.mp (hrest : c.toList ++ joined as = rest ++ joined bs) with
      ⟨more, rfl, -⟩ | ⟨more, hmore, hbs'⟩
    · exact .key hc more
    · by_cases hnil : more = []
      · subst hnil
        rw [List.append_nil] at hmore
        exact hmore ▸ (List.append_nil c.toList ▸ Begins.key hc [])
      · have hopens' : Opens more := (hbs' ▸ opens_joined hbs (by simp [hbs', hnil])).of_append hnil
        rcases hcshape.split hmore hne hopens' with ⟨front, rfl⟩ | rfl
        · exact .group front
        · exact .origin

theorem joined_eq_nil {ks : List String} (h : ∀ k ∈ ks, Canonical k) (hnil : joined ks = []) : ks = [] := by
  cases ks with
  | nil => rfl
  | cons k ks =>
    obtain ⟨kind, name, hk⟩ := (h k List.mem_cons_self).shaped
    obtain ⟨c, -, hhead⟩ := hk.opens (joined ks)
    rw [show k.toList ++ joined ks = [] from hnil] at hhead
    cases hhead

/-- Whole keys can be told apart in the text that they are put together to. -/
theorem joined_injective {as bs : List String} (has : ∀ k ∈ as, Canonical k ∧ Whole k)
    (hbs : ∀ k ∈ bs, Canonical k ∧ Whole k) (h : joined as = joined bs) : as = bs := by
  induction as generalizing bs with
  | nil => exact (joined_eq_nil (fun k hk => (hbs k hk).1) h.symm).symm
  | cons a as ih =>
    cases bs with
    | nil => exact joined_eq_nil (fun k hk => (has k hk).1) h
    | cons b bs =>
      obtain ⟨⟨ha, haw⟩, has⟩ := List.forall_mem_cons.mp has
      obtain ⟨⟨hb, hbw⟩, hbs⟩ := List.forall_mem_cons.mp hbs
      have hcas := fun k hk => (has k hk).1
      have hcbs := fun k hk => (hbs k hk).1
      have hsame : a = b ∧ joined as = joined bs := by
        rcases List.append_eq_append_iff.mp (h : a.toList ++ joined as = b.toList ++ joined bs) with
          ⟨rest, hb', hrest⟩ | ⟨rest, ha', hrest⟩
        · obtain rfl := rest_eq_nil ha hbw hb hcas hcbs hb' hrest
          exact ⟨String.toList_injective (by simpa using hb'.symm), hrest⟩
        · obtain rfl := rest_eq_nil hb haw ha hcbs hcas ha' hrest
          exact ⟨String.toList_injective (by simpa using ha'), hrest.symm⟩
      rw [hsame.1, ih has hbs hsame.2]

/-- The digests of whole keys tell them, up to a collision of the hash. -/
theorem perm_of_digest {ks ks' : List String} (h : ∀ k ∈ ks ++ ks', Canonical k ∧ Whole k)
    (hhash : digest ks = digest ks' → digestInput ks = digestInput ks') :
    digest ks = digest ks' ↔ ks.Perm ks' := by
  constructor
  · intro hdigest
    have hjoined : joined (sorted ks) = joined (sorted ks') := by
      rw [← toList_digestInput, ← toList_digestInput, hhash hdigest]
    have hsorted : sorted ks = sorted ks' :=
      joined_injective (fun k hk => h k (List.mem_append_left _ (mem_sorted.mp hk)))
        (fun k hk => h k (List.mem_append_right _ (mem_sorted.mp hk))) hjoined
    exact (sorted_perm ks).symm.trans (hsorted ▸ sorted_perm ks')
  · intro hperm
    unfold digest digestInput
    rw [sorted_congr hperm]

/-- The key of a policy tells its kind and the digests of its sides. -/
theorem composite_eq_iff_digests {kind kind' : PolicyKind} {s d s' d' : List String} :
    composite kind.text s d = composite kind'.text s' d' ↔
      kind = kind' ∧ digest s = digest s' ∧ digest d = digest d' := by
  constructor
  · intro h
    obtain rfl := kind_of_composite h
    have hcs := congrArg String.toList h
    simp only [composite, String.toList_append, List.append_assoc, List.append_cancel_left_eq] at hcs
    have hlength : (digest s).toList.length = (digest s').toList.length := by
      rw [String.length_toList, String.length_toList, length_digest, length_digest]
    obtain ⟨hs, hd⟩ := List.append_inj hcs hlength
    exact ⟨rfl, String.toList_injective hs, String.toList_injective (List.append_cancel_left hd)⟩
  · rintro ⟨rfl, hs, hd⟩
    rw [composite, composite, hs, hd]

/-- The key of a policy tells its kind and the keys on its sides, if these are whole and the hash
    does not collide on the two texts of a side. -/
theorem composite_eq_iff {kind kind' : PolicyKind} {s d s' d' : List String}
    (hkeys : ∀ k ∈ (s ++ s') ++ (d ++ d'), Canonical k ∧ Whole k)
    (hs : digest s = digest s' → digestInput s = digestInput s')
    (hd : digest d = digest d' → digestInput d = digestInput d') :
    composite kind.text s d = composite kind'.text s' d' ↔ kind = kind' ∧ s.Perm s' ∧ d.Perm d' := by
  rw [composite_eq_iff_digests, perm_of_digest (fun k hk => hkeys k (List.mem_append_left _ hk)) hs,
    perm_of_digest (fun k hk => hkeys k (List.mem_append_right _ hk)) hd]

theorem Begins.opens {cs : List Char} (h : Begins cs) : Opens cs := by
  cases h with
  | key h rest =>
    obtain ⟨kind, name, hk⟩ := h.shaped
    exact hk.opens rest
  | group rest => exact ⟨_, by decide, rfl⟩
  | origin => exact ⟨_, by decide, rfl⟩

/-- A group is whole if no key begins with a character of its name but the first. -/
theorem whole_of_plain {k : String}
    (h : k.toList.take 6 = mark .group → (k.toList.drop 7).all (!openers.contains ·) = true) :
    Whole k := by
  intro name rest hk hne hbegins
  obtain ⟨c, hc, hhead⟩ := hbegins.opens
  obtain ⟨d, name, rfl⟩ := List.exists_cons_of_ne_nil hne
  have hdrop : k.toList.drop 7 = name ++ rest := by rw [hk]; rfl
  have hmem : c ∈ k.toList.drop 7 := hdrop ▸ List.mem_append_right _ (List.mem_of_head? hhead)
  have hopener := List.all_eq_true.mp (h (by rw [hk]; rfl)) c hmem
  simp [hc] at hopener

theorem canonical_of_token (token : String) {k : String}
    (h : (classifyText token).toOption.map Endpoint.key = some k) : Canonical k := by
  cases he : classifyText token with
  | error u => rw [he] at h; cases h
  | ok e => rw [he] at h; cases h; exact .token (v := .text token) he

theorem canonical_of_origin (token : String) {k : String}
    (h : (classifyText token).toOption.map (fun e => (asOrigin e).key) = some k) : Canonical k := by
  cases he : classifyText token with
  | error u => rw [he] at h; cases h
  | ok e => rw [he] at h; cases h; exact .origin (v := .text token) he

/-- The order of the keys does not matter, here of a group and an origin. -/
theorem composite_of_unordered :
    (∀ k ∈ ["group-web", "net-res-to-group-10-0-0-1", "host-10-0-0-9"], Canonical k ∧ Whole k) ∧
      composite PolicyKind.groupToResource.text ["group-web", "net-res-to-group-10-0-0-1"] ["host-10-0-0-9"] =
        composite PolicyKind.groupToResource.text ["net-res-to-group-10-0-0-1", "group-web"] ["host-10-0-0-9"] := by
  have hkeys : ∀ k ∈ ["group-web", "net-res-to-group-10-0-0-1", "host-10-0-0-9"], Canonical k ∧ Whole k := by
    simp only [List.forall_mem_cons]
    exact ⟨⟨canonical_of_token "group:web" (by decide +kernel), whole_of_plain (by decide)⟩,
      ⟨canonical_of_origin "10.0.0.1" (by decide +kernel), whole_of_plain (by decide)⟩,
      ⟨canonical_of_token "10.0.0.9" (by decide +kernel), whole_of_plain (by decide)⟩, nofun⟩
  have hswap : ["group-web", "net-res-to-group-10-0-0-1"].Perm ["net-res-to-group-10-0-0-1", "group-web"] := .swap ..
  refine ⟨hkeys, (composite_eq_iff (fun k hk => hkeys k (by revert k; decide)) (fun _ => ?_) fun _ => rfl).mpr
    ⟨rfl, hswap, .refl _⟩⟩
  unfold digestInput
  rw [sorted_congr hswap]

/-- A group with the text of two others: the keys are canonical and no hash collides, but two
    different sides have one key. -/
theorem two_groups_as_one :
    (∀ k ∈ ["group-a", "group-b", "group-agroup-b", "group-c"], Canonical k) ∧
      digestInput ["group-a", "group-b"] = digestInput ["group-agroup-b"] ∧
      composite PolicyKind.groupToGroup.text ["group-a", "group-b"] ["group-c"] =
        composite PolicyKind.groupToGroup.text ["group-agroup-b"] ["group-c"] ∧
      ¬ ["group-a", "group-b"].Perm ["group-agroup-b"] := by
  have hinput : digestInput ["group-a", "group-b"] = digestInput ["group-agroup-b"] := by
    unfold digestInput
    rw [sorted_single, sorted_of_pairwise (by decide +kernel)]
    decide +kernel
  refine ⟨?_, hinput, composite_eq_iff_digests.mpr ⟨rfl, digest_congr hinput, rfl⟩, fun h => ?_⟩
  · simp only [List.forall_mem_cons]
    exact ⟨canonical_of_token "group:a" (by decide +kernel), canonical_of_token "group:b" (by decide +kernel),
      canonical_of_token "group:agroup-b" (by decide +kernel), canonical_of_token "group:c" (by decide +kernel), nofun⟩
  · have := h.length_eq
    cases this

end Portcullis.Key
