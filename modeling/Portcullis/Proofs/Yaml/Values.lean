/-
  Portcullis.Proofs.Yaml.Values — the value of the nodes that store a tree.

  Values are made level by level. While they are, every node that has been met waits for its
  parts or has its final layer, and then its parts have been met (`Good`). What is met in one
  round has fewer nodes below it than what was filled (`Nodes.Within`), so the rounds suffice.
  - `Built.settle_good`: when nothing waits any more, every layer is the final one.
  - `Nodes.value_stored`: the value is that of the tree, with its texts as they are seen.
-/

import Portcullis.Proofs.Entries
import Portcullis.Proofs.Yaml.Grammar
import Portcullis.Yaml.Built

namespace Portcullis.Yaml

namespace Nodes

variable {ns : Nodes} {t : Tree} {r next : Ref}

/-! ## Final layers -/

def keyOf (ns : Nodes) (r : Ref) : Value :=
  match ns.get r with
  | .scalar _ cs => .text (String.ofList cs)
  | _ => .null

def layerOf (ns : Nodes) (r : Ref) : Layer Ref :=
  match ns.get r with
  | .scalar tag cs => .scalar ((Content.scalar tag cs).toOption.getD .null)
  | .list _ items => .list items
  | .map _ es => .map (Value.mapOf (es.map fun e => (ns.keyOf e.1, e.2)))

def parts (ns : Nodes) (r : Ref) : List Ref :=
  match ns.get r with
  | .scalar _ _ => []
  | .list _ items => items
  | .map _ es => es.map Prod.snd

/-- A collection with at most so many nodes, itself among them. -/
def Within (ns : Nodes) (size : Nat) (r : Ref) : Prop :=
  ∃ t next, ns.Stores t r next ∧ next ≤ ns.size ∧ next - r ≤ size ∧ (Built.empty? (ns.tag r)).isSome

theorem Within.mono {m n : Nat} (h : ns.Within m r) (hmn : m ≤ n) : ns.Within n r := by
  obtain ⟨t, next, hstores, hnext, hsize, hempty⟩ := h
  exact ⟨t, next, hstores, hnext, hsize.trans hmn, hempty⟩

theorem not_within_zero : ¬ ns.Within 0 r := by
  rintro ⟨t, next, hstores, -, hsize, -⟩
  exact Nat.not_le.mpr hstores.lt (Nat.sub_eq_zero_iff_le.mp (Nat.le_zero.mp hsize))

/-- Without merge keys and default values a table stays as it is. -/
theorem flatten_text {steps : Nat} (h : ∀ e ∈ (ns.get r).entries, ns.tag e.1 = .text) :
    ns.flatten (steps + 1) r = .ok ns := by
  have htake : ∀ es : List (Ref × Ref), (∀ e ∈ es, ns.tag e.1 = .text) → ns.takeMerge? es = none := fun es hes => by
    induction es with
    | nil => rfl
    | cons e es ih =>
      obtain ⟨he, hes⟩ := List.forall_mem_cons.mp hes
      rw [takeMerge?, if_neg (by simp [he]), ih hes]
      rfl
  have hkeep : ∀ es : List (Ref × Ref), (∀ e ∈ es, ns.tag e.1 = .text) →
      es.foldl (fun ns e => ns.keepKey e.1) ns = ns := by
    intro es hes
    induction es with
    | nil => rfl
    | cons e es ih =>
      obtain ⟨he, hes⟩ := List.forall_mem_cons.mp hes
      rw [List.foldl_cons, keepKey, if_neg (by simp [he]), ih hes]
  rw [flatten, htake _ h]
  exact congrArg Except.ok (hkeep _ h)

theorem StoresEntries.text {es : List (String × Tree)} {entries : List (Ref × Ref)}
    (h : ns.StoresEntries es entries r next) : ∀ e ∈ entries, ns.tag e.1 = .text := by
  induction es generalizing entries r with
  | nil =>
    obtain ⟨rfl, -⟩ := h
    simp
  | cons e es ih =>
    obtain ⟨k, t⟩ := e
    obtain ⟨rest, mid, rfl, hkey, -, hes⟩ := h
    exact List.forall_mem_cons.mpr ⟨by rw [tag, hkey]; rfl, ih hes⟩

end Nodes

namespace Built

variable {ns : Nodes} {b b' : Built} {r : Ref} {m n : Nat}

def got (b : Built) (r : Ref) : Option (Layer Ref) := b.layers.getD r none

theorem got_put_self {l : Layer Ref} (h : r < b.layers.size) : (b.put r l).got r = some l := by
  simp [got, put, h]

theorem got_put_ne {l : Layer Ref} {i : Ref} (h : i ≠ r) : (b.put r l).got i = b.got i := by
  simp [got, put, Array.getD_eq_getD_getElem?, h.symm]

theorem size_put (b : Built) (r : Ref) (l : Layer Ref) : (b.put r l).layers.size = b.layers.size := by
  simp [put]

theorem lt_of_got {l : Layer Ref} (h : b.got r = some l) : r < b.layers.size := by
  by_contra hr
  simp [got, hr] at h

/-! ## Meeting nodes -/

structure Grows (ns : Nodes) (n : Nat) (b b' : Built) : Prop where
  nodes : b'.nodes = b.nodes
  size : b'.layers.size = b.layers.size
  kept : ∀ i l, b.got i = some l → b'.got i = some l
  fresh : ∀ i l, b'.got i = some l → b.got i = some l ∨ i ∈ b'.waiting ∨ (l = ns.layerOf i ∧ ns.parts i = [])
  waits : ∀ i ∈ b.waiting, i ∈ b'.waiting
  within : ∀ i ∈ b'.waiting, i ∈ b.waiting ∨ ns.Within n i

theorem Grows.refl (ns : Nodes) (n : Nat) (b : Built) : Grows ns n b b :=
  ⟨rfl, rfl, fun _ _ => id, fun _ _ => .inl, fun _ => id, fun _ => .inl⟩

theorem Grows.mono (h : Grows ns m b b') (hmn : m ≤ n) : Grows ns n b b' :=
  ⟨h.nodes, h.size, h.kept, h.fresh, h.waits, fun i hi => (h.within i hi).imp_right (·.mono hmn)⟩

theorem Grows.trans {b'' : Built} (h : Grows ns n b b') (h' : Grows ns n b' b'') : Grows ns n b b'' where
  nodes := h'.nodes.trans h.nodes
  size := h'.size.trans h.size
  kept := fun i l hi => h'.kept i l (h.kept i l hi)
  fresh := fun i l hi => by
    rcases h'.fresh i l hi with hi | hi | hi
    · exact (h.fresh i l hi).imp_right (.imp_left (h'.waits i))
    · exact .inr (.inl hi)
    · exact .inr (.inr hi)
  waits := fun i hi => h'.waits i (h.waits i hi)
  within := fun i hi => (h'.within i hi).elim (h.within i) .inr

/-- What has been made of the nodes of a document: some wait for their parts, either now or later,
    and the others have their final layer. -/
structure Good (ns : Nodes) (pending : List Ref) (b : Built) : Prop where
  nodes : b.nodes = ns
  size : b.layers.size = ns.size
  state : ∀ i l, b.got i = some l →
    i ∈ pending ∨ i ∈ b.waiting ∨ (l = ns.layerOf i ∧ ∀ p ∈ ns.parts i, (b.got p).isSome)
  within : ∀ i, i ∈ pending ∨ i ∈ b.waiting → ns.Within ns.size i

theorem Good.grows {pending : List Ref} (h : Good ns pending b) (hb : Grows ns n b b') (hn : n ≤ ns.size) :
    Good ns pending b' where
  nodes := hb.nodes.trans h.nodes
  size := hb.size.trans h.size
  state := fun i l hi => by
    rcases hb.fresh i l hi with hold | hwaits | ⟨hl, hparts⟩
    · rcases h.state i l hold with hi | hi | ⟨hl, hparts⟩
      · exact .inl hi
      · exact .inr (.inl (hb.waits i hi))
      · refine .inr (.inr ⟨hl, fun p hp => ?_⟩)
        obtain ⟨l', hl'⟩ := Option.isSome_iff_exists.mp (hparts p hp)
        exact Option.isSome_iff_exists.mpr ⟨l', hb.kept p l' hl'⟩
    · exact .inr (.inl hwaits)
    · exact .inr (.inr ⟨hl, by simp [hparts]⟩)
  within := fun i hi => by
    rcases hi with hi | hi
    · exact h.within i (.inl hi)
    · rcases hb.within i hi with hi | hi
      · exact h.within i (.inr hi)
      · exact hi.mono hn

/-- A node that has been met stays as it is. -/
theorem meet_of_got {l : Layer Ref} (h : b.got r = some l) : b.meet r = .ok b :=
  if_pos (show (b.got r).isSome = true by rw [h]; rfl)

theorem meet_of_new (h : b.got r = none) : b.meet r = match empty? (b.nodes.tag r) with
    | some l => .ok { b.put r l with waiting := r :: b.waiting }
    | none => (scalarOf b.nodes r).map fun v => b.put r (.scalar v) :=
  if_neg (show ¬ (b.got r).isSome = true by rw [h]; decide)

theorem grows_put_scalar {v : Value} (hr : r < b.layers.size) (hnew : b.got r = none) (hv : ns.layerOf r = .scalar v)
    (hparts : ns.parts r = []) : Grows ns n b (b.put r (.scalar v)) where
  nodes := rfl
  size := size_put b r _
  kept := fun i l hi => by
    have hne : i ≠ r := fun h => by rw [h, hnew] at hi; cases hi
    rwa [got_put_ne hne]
  fresh := fun i l hi => by
    by_cases hi' : i = r
    · subst hi'
      rw [got_put_self hr] at hi
      exact .inr (.inr ⟨(Option.some.inj hi).symm.trans hv.symm, hparts⟩)
    · rw [got_put_ne hi'] at hi
      exact .inl hi
  waits := fun _ => id
  within := fun _ => .inl

theorem grows_put_empty {l : Layer Ref} (hr : r < b.layers.size) (hnew : b.got r = none) (hwithin : ns.Within n r) :
    Grows ns n b { b.put r l with waiting := r :: b.waiting } where
  nodes := rfl
  size := size_put b r _
  kept := fun i l' hi => by
    have hne : i ≠ r := fun h => by rw [h, hnew] at hi; cases hi
    exact (got_put_ne hne).trans hi
  fresh := fun i l' hi => by
    by_cases hi' : i = r
    · exact .inr (.inl (hi' ▸ List.mem_cons_self))
    · exact .inl ((got_put_ne hi').symm.trans hi)
  waits := fun _ => List.mem_cons_of_mem _
  within := fun i hi => by
    rcases List.mem_cons.mp hi with rfl | hi
    · exact .inr hwithin
    · exact .inl hi

/-- A collection that has not been met waits for its parts. -/
theorem meet_within (hnodes : b.nodes = ns) (hr : r < b.layers.size) (h : ns.Within n r) :
    ∃ b', b.meet r = .ok b' ∧ Grows ns n b b' ∧ (b'.got r).isSome := by
  cases hnew : b.got r with
  | some l => exact ⟨b, meet_of_got hnew, Grows.refl ns n b, by rw [hnew]; rfl⟩
  | none =>
    obtain ⟨l, hl⟩ := Option.isSome_iff_exists.mp (h.choose_spec.choose_spec.2.2.2)
    refine ⟨{ b.put r l with waiting := r :: b.waiting }, ?_, grows_put_empty hr hnew h, ?_⟩
    · rw [meet_of_new hnew, hnodes, hl]
    · exact Option.isSome_iff_exists.mpr ⟨l, got_put_self hr⟩

/-- A scalar gets its layer at once. -/
theorem meet_scalar {tag : Tag} {cs : List Char} {v : Value} (hnodes : b.nodes = ns) (hr : r < b.layers.size)
    (hget : ns.get r = .scalar tag cs) (hv : Content.scalar tag cs = .ok v) (hempty : empty? tag = none) :
    ∃ b', b.meet r = .ok b' ∧ Grows ns n b b' ∧ (b'.got r).isSome := by
  have hlayer : ns.layerOf r = .scalar v := by simp [Nodes.layerOf, hget, hv, Except.toOption]
  have hparts : ns.parts r = [] := by simp [Nodes.parts, hget]
  cases hnew : b.got r with
  | some l => exact ⟨b, meet_of_got hnew, Grows.refl ns n b, by rw [hnew]; rfl⟩
  | none =>
    refine ⟨b.put r (.scalar v), ?_, grows_put_scalar hr hnew hlayer hparts, ?_⟩
    · have htag : ns.tag r = tag := by rw [Nodes.tag, hget]; rfl
      have hscalar : scalarOf ns r = .ok v := by
        unfold scalarOf Nodes.text
        rw [hget]
        exact hv
      rw [meet_of_new hnew, hnodes, htag, hempty, hscalar]
      rfl
    · exact Option.isSome_iff_exists.mpr ⟨_, got_put_self hr⟩

theorem Grows.isSome (h : Grows ns n b b') {i : Ref} (hi : (b.got i).isSome) : (b'.got i).isSome := by
  obtain ⟨l, hl⟩ := Option.isSome_iff_exists.mp hi
  exact Option.isSome_iff_exists.mpr ⟨l, h.kept i l hl⟩

theorem scalar_flag (b : Bool) : Content.scalar .bool (if b then "true" else "false").toList = .ok (.bool b) := by
  cases b <;> rfl

/-- The root of a stored tree can be met. -/
theorem meet_stored {t : Tree} {next : Ref} (h : ns.Stores t r next) (hnext : next ≤ ns.size) (hnodes : b.nodes = ns)
    (hsize : b.layers.size = ns.size) : ∃ b', b.meet r = .ok b' ∧ Grows ns (next - r) b b' ∧ (b'.got r).isSome := by
  have hr : r < b.layers.size := hsize ▸ h.lt.trans_le hnext
  cases t with
  | text s => exact meet_scalar hnodes hr h.1 rfl rfl
  | flag b => exact meet_scalar hnodes hr h.1 (scalar_flag b) rfl
  | list ts =>
    obtain ⟨items, hget, -⟩ := id h
    exact meet_within hnodes hr ⟨_, next, h, hnext, Nat.le_refl _, by rw [Nodes.tag, hget]; rfl⟩
  | table es =>
    obtain ⟨entries, hget, -⟩ := id h
    exact meet_within hnodes hr ⟨_, next, h, hnext, Nat.le_refl _, by rw [Nodes.tag, hget]; rfl⟩

/-- The items of a stored list can be met. -/
theorem meet_items {ts : List Tree} {items : List Ref} {next : Ref} (h : ns.StoresItems ts items r next)
    (hnext : next ≤ ns.size) (hnodes : b.nodes = ns) (hsize : b.layers.size = ns.size) :
    ∃ b', items.foldlM meet b = .ok b' ∧ Grows ns (next - r) b b' ∧ ∀ i ∈ items, (b'.got i).isSome := by
  induction ts generalizing items r b with
  | nil =>
    obtain ⟨rfl, rfl⟩ := h
    exact ⟨b, rfl, Grows.refl ns _ b, by simp⟩
  | cons t ts ih =>
    obtain ⟨rest, mid, rfl, ht, hts⟩ := h
    obtain ⟨b₁, hb₁, hgrows₁, hmet₁⟩ := meet_stored ht (hts.le.trans hnext) hnodes hsize
    obtain ⟨b₂, hb₂, hgrows₂, hmet₂⟩ := ih hts (hgrows₁.nodes.trans hnodes) (hgrows₁.size.trans hsize)
    refine ⟨b₂, ?_, (hgrows₁.mono (Nat.sub_le_sub_right hts.le r)).trans
      (hgrows₂.mono (Nat.sub_le_sub_left ht.lt.le next)), List.forall_mem_cons.mpr ⟨hgrows₂.isSome hmet₁, hmet₂⟩⟩
    rw [List.foldlM_cons, hb₁]
    exact hb₂

theorem layer_of_got {l : Layer Ref} (h : b.got r = some l) : b.layer r = l := by
  unfold layer
  rw [show b.layers.getD r none = some l from h]
  rfl

structure MetEntry (ns : Nodes) (b : Built) (e : Ref × Ref) : Prop where
  key : b.got e.1 = some (.scalar (ns.keyOf e.1))
  value : (b.got e.2).isSome

/-- A text that has been met has its layer. -/
theorem Good.got_text {pending : List Ref} {cs : List Char} {l : Layer Ref} (h : Good ns pending b)
    (hget : ns.get r = .scalar .text cs) (hl : b.got r = some l) : l = .scalar (ns.keyOf r) := by
  have hnot : ¬ ns.Within ns.size r := fun hwithin => by
    have hempty := hwithin.choose_spec.choose_spec.2.2.2
    rw [Nodes.tag, hget] at hempty
    cases hempty
  rcases h.state r l hl with hr | hr | ⟨rfl, -⟩
  · exact absurd (h.within r (.inl hr)) hnot
  · exact absurd (h.within r (.inr hr)) hnot
  · simp [Nodes.layerOf, Nodes.keyOf, hget, Content.scalar, Except.toOption]

/-- The entries of a stored table can be met. -/
theorem meet_entries {es : List (String × Tree)} {entries : List (Ref × Ref)} {next : Ref}
    (h : ns.StoresEntries es entries r next) (hnext : next ≤ ns.size) {pending : List Ref} (hgood : Good ns pending b) :
    ∃ b', entries.foldlM meetEntry b = .ok b' ∧ Grows ns (next - r) b b' ∧ ∀ e ∈ entries, MetEntry ns b' e := by
  induction es generalizing entries r b with
  | nil =>
    obtain ⟨rfl, rfl⟩ := h
    exact ⟨b, rfl, Grows.refl ns _ b, by simp⟩
  | cons e es ih =>
    obtain ⟨k, t⟩ := e
    obtain ⟨rest, mid, rfl, hkey, ht, hes⟩ := h
    have hmid : mid ≤ ns.size := hes.le.trans hnext
    have hsub : next - mid ≤ next - r := Nat.sub_le_sub_left ((Nat.le_succ r).trans ht.lt.le) next
    have hr : r < b.layers.size := hgood.size ▸ (Nat.lt_succ_self r).trans (ht.lt.trans_le hmid)
    obtain ⟨b₁, hb₁, hgrows₁, hmet₁⟩ := meet_scalar (n := 0) hgood.nodes hr hkey rfl rfl
    have hgood₁ := hgood.grows hgrows₁ (Nat.zero_le _)
    obtain ⟨l, hl⟩ := Option.isSome_iff_exists.mp hmet₁
    obtain rfl := hgood₁.got_text hkey hl
    obtain ⟨b₂, hb₂, hgrows₂, hmet₂⟩ := meet_stored ht hmid hgood₁.nodes hgood₁.size
    have hgood₂ := hgood₁.grows hgrows₂ ((Nat.sub_le _ _).trans hmid)
    obtain ⟨b₃, hb₃, hgrows₃, hmet₃⟩ := ih hes hgood₂
    refine ⟨b₃, ?_, ((hgrows₁.mono (Nat.zero_le _)).trans (hgrows₂.mono ?_)).trans (hgrows₃.mono hsub),
      List.forall_mem_cons.mpr ⟨⟨hgrows₃.kept _ _ (hgrows₂.kept _ _ hl), hgrows₃.isSome hmet₂⟩, hmet₃⟩⟩
    · have hentry : b.meetEntry (r, r + 1) = .ok b₂ := by
        unfold meetEntry
        rw [hb₁]
        show (if (b₁.layer r).isScalar then b₁.meet (r + 1) else _) = _
        rw [layer_of_got hl]
        exact hb₂
      rw [List.foldlM_cons, hentry]
      exact hb₃
    · exact (Nat.sub_le_sub_right hes.le _).trans (Nat.sub_le_sub_left (Nat.le_succ r) next)

/-! ## Filling what waits -/

theorem Good.isSome_put {l : Layer Ref} {i : Ref} (hr : r < b.layers.size) (hi : (b.got i).isSome) :
    ((b.put r l).got i).isSome := by
  by_cases h : i = r
  · rw [h, got_put_self hr]
    rfl
  · rwa [got_put_ne h]

/-- A collection whose parts have been met gets its final layer. -/
theorem Good.put {pending : List Ref} (h : Good ns (r :: pending) b) (hr : r < ns.size)
    (hparts : ∀ p ∈ ns.parts r, (b.got p).isSome) : Good ns pending (b.put r (ns.layerOf r)) where
  nodes := h.nodes
  size := (size_put b r _).trans h.size
  state := fun i l hi => by
    have hlt : r < b.layers.size := h.size ▸ hr
    by_cases hi' : i = r
    · subst hi'
      rw [got_put_self hlt] at hi
      exact .inr (.inr ⟨(Option.some.inj hi).symm, fun p hp => Good.isSome_put hlt (hparts p hp)⟩)
    · rw [got_put_ne hi'] at hi
      rcases h.state i l hi with hmem | hmem | ⟨hl, hmet⟩
      · exact .inl ((List.mem_cons.mp hmem).resolve_left hi')
      · exact .inr (.inl hmem)
      · exact .inr (.inr ⟨hl, fun p hp => Good.isSome_put hlt (hmet p hp)⟩)
  within := fun i hi => h.within i (hi.imp_left (List.mem_cons_of_mem r))

structure Filled (ns : Nodes) (n : Nat) (b b' : Built) : Prop where
  within : ∀ i ∈ b'.waiting, i ∈ b.waiting ∨ ns.Within n i
  met : ∀ i, (b.got i).isSome → (b'.got i).isSome

theorem Filled.refl (ns : Nodes) (n : Nat) (b : Built) : Filled ns n b b := ⟨fun _ => .inl, fun _ => id⟩

theorem Filled.trans {b'' : Built} (h : Filled ns n b b') (h' : Filled ns n b' b'') : Filled ns n b b'' :=
  ⟨fun i hi => (h'.within i hi).elim (h.within i) .inr, fun i hi => h'.met i (h.met i hi)⟩

theorem Grows.filled (h : Grows ns n b b') (hr : r < b.layers.size) (l : Layer Ref) : Filled ns n b (b'.put r l) :=
  ⟨h.within, fun _ hi => Good.isSome_put (h.size ▸ hr) (h.isSome hi)⟩

/-- Filling a collection: its parts have fewer nodes than itself. -/
theorem fill_good (steps : Nat) {pending : List Ref} (h : Good ns (r :: pending) b) (hwithin : ns.Within (n + 1) r) :
    ∃ b', fill (steps + 1) b r = .ok b' ∧ Good ns pending b' ∧ Filled ns n b b' := by
  obtain ⟨t, next, ht, hnext, hsize, hempty⟩ := hwithin
  have hr : r < ns.size := ht.lt.trans_le hnext
  have hlt : r < b.layers.size := h.size ▸ hr
  have hsub : next - (r + 1) ≤ n := by
    rw [Nat.sub_add_eq]
    exact Nat.sub_le_of_le_add hsize
  have hsub' : next - (r + 1) ≤ ns.size := (Nat.sub_le _ _).trans hnext
  cases t with
  | text s =>
    rw [Nodes.tag, ht.1] at hempty
    cases hempty
  | flag _ =>
    rw [Nodes.tag, ht.1] at hempty
    cases hempty
  | list ts =>
    obtain ⟨items, hget, hts⟩ := ht
    obtain ⟨b₁, hb₁, hgrows, hmet⟩ := meet_items hts hnext h.nodes h.size
    have hgood := (h.grows hgrows hsub').put hr (by simpa [Nodes.parts, hget] using hmet)
    refine ⟨_, ?_, hgood, (hgrows.mono hsub).filled hlt _⟩
    have hlayer : ns.layerOf r = .list items := by simp [Nodes.layerOf, hget]
    unfold fill
    rw [h.nodes, hget, hlayer]
    show (items.foldlM meet b >>= _) = _
    rw [hb₁]
    rfl
  | table es =>
    obtain ⟨entries, hget, hes⟩ := ht
    obtain ⟨b₁, hb₁, hgrows, hmet⟩ := meet_entries hes hnext h
    have hparts : ∀ p ∈ ns.parts r, (b₁.got p).isSome := by
      simp only [Nodes.parts, hget, List.mem_map]
      rintro _ ⟨e, he, rfl⟩
      exact (hmet e he).value
    have hgood := (h.grows hgrows hsub').put hr hparts
    refine ⟨_, ?_, hgood, (hgrows.mono hsub).filled hlt _⟩
    have hentries : (ns.get r).entries = entries := by rw [hget]; rfl
    have hflatten : b.nodes.flatten (steps + 1) r = .ok ns := by
      rw [h.nodes]
      exact Nodes.flatten_text (by rw [hentries]; exact hes.text)
    have hsame : ({ b with nodes := ns } : Built) = b := by rw [← h.nodes]
    have hlayer : ns.layerOf r = .map (b₁.entries entries) := by
      simp only [Nodes.layerOf, hget, Built.entries]
      refine congrArg (fun l => Layer.map (Value.mapOf l)) (List.map_congr_left fun e he => ?_)
      unfold scalar
      rw [layer_of_got (hmet e he).key]
    have hmeet : b.meetEntries (steps + 1) r = .ok (b₁.entries entries, b₁) := by
      unfold meetEntries
      rw [hflatten]
      show ((ns.get r).entries.foldlM meetEntry { b with nodes := ns } >>= fun b =>
        pure (b.entries (ns.get r).entries, b)) = _
      rw [hentries, hsame, hb₁]
      rfl
    unfold fill
    rw [h.nodes, hget, hlayer]
    show (b.meetEntries (steps + 1) r >>= _) = _
    rw [hmeet]
    rfl

/-- One round fills all collections that were waiting. -/
theorem round_good (steps : Nat) {pending : List Ref} (h : Good ns pending b)
    (hwithin : ∀ i ∈ pending, ns.Within (n + 1) i) :
    ∃ b', pending.foldlM (fill (steps + 1)) b = .ok b' ∧ Good ns [] b' ∧ Filled ns n b b' := by
  induction pending generalizing b with
  | nil => exact ⟨b, rfl, h, Filled.refl ns n b⟩
  | cons r pending ih =>
    obtain ⟨hr, hpending⟩ := List.forall_mem_cons.mp hwithin
    obtain ⟨b₁, hb₁, hgood₁, hfilled₁⟩ := fill_good steps h hr
    obtain ⟨b₂, hb₂, hgood₂, hfilled₂⟩ := ih hgood₁ hpending
    refine ⟨b₂, ?_, hgood₂, hfilled₁.trans hfilled₂⟩
    rw [List.foldlM_cons, hb₁]
    exact hb₂

/-- When nothing waits any more, every node that has been met has its final layer. -/
theorem settle_good (steps : Nat) {rounds : Nat} (h : Good ns [] b) (hwithin : ∀ i ∈ b.waiting, ns.Within rounds i) :
    ∃ b', b.settle (steps + 1) rounds = .ok b' ∧ Good ns [] b' ∧ b'.waiting = [] ∧
      ∀ i, (b.got i).isSome → (b'.got i).isSome := by
  induction rounds generalizing b with
  | zero =>
    have hnil : b.waiting = [] := List.eq_nil_iff_forall_not_mem.mpr fun i hi => Nodes.not_within_zero (hwithin i hi)
    exact ⟨b, rfl, h, hnil, fun _ => id⟩
  | succ rounds ih =>
    cases hwaiting : b.waiting with
    | nil => exact ⟨b, by rw [settle]; simp only [hwaiting], h, hwaiting, fun _ => id⟩
    | cons r waiting =>
      have hstart : Good ns b.waiting.reverse { b with waiting := [] } :=
        ⟨h.nodes, h.size, fun i l hi => (h.state i l hi).elim (fun hno => by cases hno) fun hi => hi.elim
          (fun hi => .inl (List.mem_reverse.mpr hi)) fun hi => .inr (.inr hi),
          fun i hi => h.within i (.inr (hi.elim List.mem_reverse.mp fun hno => by cases hno))⟩
      obtain ⟨b₁, hb₁, hgood₁, hfilled⟩ := round_good steps hstart
        fun i hi => hwithin i (List.mem_reverse.mp hi)
      obtain ⟨b₂, hb₂, hgood₂, hnil, hmet⟩ := ih hgood₁ fun i hi => (hfilled.within i hi).resolve_left (by simp)
      refine ⟨b₂, ?_, hgood₂, hnil, fun i hi => hmet i (hfilled.met i hi)⟩
      rw [settle]
      simp only [hwaiting]
      rw [← hwaiting]
      show (b.waiting.reverse.foldlM (fill (steps + 1)) { b with waiting := [] } >>= _) = _
      rw [hb₁]
      exact hb₂

end Built

/-! ## The value of a tree -/

mutual

/-- The value that a tree is read as: every text as its style lets it be seen, and of several
    entries whose keys are seen alike the last one. -/
def seenValue : Tree → Value
  | .text s => .text (String.ofList ((valueStyle s.toList).seen s.toList))
  | .flag b => .bool b
  | .list ts => .list (seenItems ts)
  | .table es => .map (Value.mapOf (seenEntries es))

def seenItems : List Tree → List Value
  | [] => []
  | t :: ts => seenValue t :: seenItems ts

def seenEntries : List (String × Tree) → List (Value × Value)
  | [] => []
  | (k, t) :: es => (.text (String.ofList ((keyStyle k.toList).seen k.toList)), seenValue t) :: seenEntries es

end

namespace Built

variable {ns : Nodes} {b : Built}

/-- Where nothing waits, the web has the final layers. -/
theorem Good.layer_web (h : Good ns [] b) (hnil : b.waiting = []) {i : Ref} (hi : (b.got i).isSome) :
    b.web.layer i = ns.layerOf i ∧ ∀ p ∈ ns.parts i, (b.got p).isSome := by
  obtain ⟨l, hl⟩ := Option.isSome_iff_exists.mp hi
  have hfinal : l = ns.layerOf i ∧ ∀ p ∈ ns.parts i, (b.got p).isSome := by
    rcases h.state i l hl with hno | hno | hfinal
    · cases hno
    · rw [hnil] at hno
      cases hno
    · exact hfinal
  refine ⟨?_, hfinal.2⟩
  rw [← hfinal.1]
  have hlt := lt_of_got hl
  simp only [got, Array.getD_eq_getD_getElem?] at hl
  simp only [web, Web.layer, Array.getD_eq_getD_getElem?, Array.getElem?_map]
  rw [Array.getElem?_eq_getElem hlt] at hl ⊢
  simp only [Option.getD_some] at hl
  simp [hl]

theorem not_contains {around : List Ref} {r : Ref} (h : ∀ i ∈ around, i < r) : around.contains r = false := by
  rw [List.contains_eq_mem, decide_eq_false_iff_not]
  exact fun hr => Nat.lt_irrefl r (h r hr)

mutual

/-- Unfolded from a node, the web gives the tree that the node stores. -/
theorem unfold_tree (hgood : Good ns [] b) (hnil : b.waiting = []) (t : Tree) {r next : Ref} (h : ns.Stores t r next)
    (hmet : (b.got r).isSome) {around : List Ref} (haround : ∀ i ∈ around, i < r) {depth : Nat}
    (hdepth : next ≤ r + depth) :
    b.web.unfold depth around r = seenValue t := by
  have hpos : depth ≠ 0 := by
    rintro rfl
    exact Nat.not_le.mpr h.lt hdepth
  obtain ⟨depth, rfl⟩ := Nat.exists_eq_succ_of_ne_zero hpos
  obtain ⟨hlayer, hparts⟩ := hgood.layer_web hnil hmet
  have hinside : ∀ i ∈ r :: around, i < r + 1 := List.forall_mem_cons.mpr
    ⟨Nat.lt_succ_self r, fun i hi => (haround i hi).trans (Nat.lt_succ_self r)⟩
  have hdepth' : next ≤ r + 1 + depth := by rwa [Nat.add_assoc, Nat.add_comm 1 depth]
  rw [Web.unfold, hlayer]
  match t, h with
  | .text s, h =>
    simp only [Nodes.layerOf, h.1]
    rfl
  | .flag x, h =>
    simp only [Nodes.layerOf, h.1, scalar_flag]
    rfl
  | .list ts, h =>
    obtain ⟨items, hget, hts⟩ := h
    simp only [Nodes.parts, hget] at hparts
    simp only [Nodes.layerOf, hget, not_contains haround, Bool.false_eq_true, if_false]
    rw [unfold_items hgood hnil ts hts hparts hinside hdepth', seenValue]
  | .table es, h =>
    obtain ⟨entries, hget, hes⟩ := h
    simp only [Nodes.parts, hget, List.forall_mem_map] at hparts
    simp only [Nodes.layerOf, hget, not_contains haround, Bool.false_eq_true, if_false]
    rw [Value.map_mapOf, List.map_map, seenValue]
    exact congrArg (fun l => Value.map (Value.mapOf l)) (unfold_entries hgood hnil es hes hparts hinside hdepth')

theorem unfold_items (hgood : Good ns [] b) (hnil : b.waiting = []) (ts : List Tree) {items : List Ref} {r next : Ref}
    (h : ns.StoresItems ts items r next) (hmet : ∀ i ∈ items, (b.got i).isSome) {around : List Ref}
    (haround : ∀ i ∈ around, i < r) {depth : Nat} (hdepth : next ≤ r + depth) :
    items.map (b.web.unfold depth around) = seenItems ts := by
  match ts with
  | [] =>
    obtain ⟨rfl, -⟩ := h
    rfl
  | t :: ts =>
    obtain ⟨rest, mid, rfl, ht, hts⟩ := h
    obtain ⟨hmet, hmets⟩ := List.forall_mem_cons.mp hmet
    rw [List.map_cons, unfold_tree hgood hnil t ht hmet haround (hts.le.trans hdepth),
      unfold_items hgood hnil ts hts hmets (fun i hi => (haround i hi).trans ht.lt)
        (hdepth.trans (Nat.add_le_add_right ht.lt.le depth)), seenItems]

theorem unfold_entries (hgood : Good ns [] b) (hnil : b.waiting = []) (es : List (String × Tree))
    {entries : List (Ref × Ref)}
    {r next : Ref} (h : ns.StoresEntries es entries r next) (hmet : ∀ e ∈ entries, (b.got e.2).isSome)
    {around : List Ref}
    (haround : ∀ i ∈ around, i < r) {depth : Nat} (hdepth : next ≤ r + depth) :
    entries.map (fun e => (ns.keyOf e.1, b.web.unfold depth around e.2)) = seenEntries es := by
  match es with
  | [] =>
    obtain ⟨rfl, -⟩ := h
    rfl
  | (k, t) :: es =>
    obtain ⟨rest, mid, rfl, hkey, ht, hes⟩ := h
    obtain ⟨hmet, hmets⟩ := List.forall_mem_cons.mp hmet
    have hmid : r ≤ mid := (Nat.le_succ r).trans ht.lt.le
    have hvalue := unfold_tree hgood hnil t ht hmet (fun i hi => (haround i hi).trans (Nat.lt_succ_self r))
      ((hes.le.trans hdepth).trans (Nat.add_le_add_right (Nat.le_succ r) depth))
    have hrest := unfold_entries hgood hnil es hes hmets (fun i hi => (haround i hi).trans_le hmid)
      (hdepth.trans (Nat.add_le_add_right hmid depth))
    rw [List.map_cons, hvalue, hrest, seenEntries]
    simp only [Nodes.keyOf, hkey]

end

theorem good_ofNodes (ns : Nodes) : Good ns [] (.ofNodes ns) where
  nodes := rfl
  size := Array.size_replicate
  state := fun i l hi => by
    simp only [got, ofNodes, Array.getD_eq_getD_getElem?, Array.getElem?_replicate] at hi
    split at hi <;> cases hi
  within := by simp [ofNodes]

end Built

/-- The value of the nodes that store a tree. -/
theorem Nodes.value_stored {ns : Nodes} {t : Tree} (h : ns.Stores t 0 ns.size) :
    ∃ strand, ns.value 0 = .ok strand ∧ strand.value = seenValue t := by
  have hstart := Built.good_ofNodes ns
  obtain ⟨b₁, hb₁, hgrows, hmet₁⟩ := Built.meet_stored h (Nat.le_refl _) hstart.nodes hstart.size
  have hgood₁ := hstart.grows hgrows (Nat.sub_le _ _)
  have hwaiting : ∀ i ∈ b₁.waiting, ns.Within (ns.size + 1) i := fun i hi =>
    ((hgrows.within i hi).resolve_left (by simp [Built.ofNodes])).mono ((Nat.sub_le _ _).trans (Nat.le_succ _))
  obtain ⟨b₂, hb₂, hgood₂, hnil, hmet₂⟩ := Built.settle_good ns.entries.length hgood₁ hwaiting
  refine ⟨⟨b₂.web, 0⟩, ?_, ?_⟩
  · unfold Nodes.value
    rw [hb₁]
    show (b₁.settle (ns.entries.length + 1) (ns.size + 1) >>= _) = _
    rw [hb₂]
    rfl
  · have hsize : b₂.web.layers.size = ns.size := by simp [Built.web, hgood₂.size]
    unfold Strand.value
    refine Built.unfold_tree hgood₂ hnil t h (hmet₂ 0 hmet₁) (by simp) ?_
    rw [hsize, Nat.zero_add]
    exact Nat.le_succ _

end Portcullis.Yaml
