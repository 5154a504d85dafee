/-
  Portcullis.Table — tables from text keys to values that remember the order in which their
  keys first came.

  Storing under a key that is there keeps the key's place and replaces the value; a new key
  goes last. No key occurs twice, and the type says so.
  - `get?_insert`: a look-up after a store sees the store.
  - `keys_insert`: the keys after a store.
-/

namespace Portcullis

structure Table (α : Type) where
  entries : List (String × α)
  nodup : (entries.map Prod.fst).Nodup
  deriving DecidableEq

namespace Table

variable {α β : Type}

def empty : Table α := ⟨[], List.nodup_nil⟩

instance : EmptyCollection (Table α) := ⟨empty⟩

instance : Inhabited (Table α) := ⟨empty⟩

def toList (t : Table α) : List (String × α) := t.entries

def keys (t : Table α) : List String := t.entries.map Prod.fst

def values (t : Table α) : List α := t.entries.map Prod.snd

def find (k : String) : List (String × α) → Option α
  | [] => none
  | (k', v) :: r => if k' = k then some v else find k r

def get? (t : Table α) (k : String) : Option α := find k t.entries

def contains (t : Table α) (k : String) : Bool := (t.get? k).isSome

def store (k : String) (v : α) : List (String × α) → List (String × α)
  | [] => [(k, v)]
  | (k', v') :: r => if k' = k then (k, v) :: r else (k', v') :: store k v r

theorem keys_store (k : String) (v : α) (l : List (String × α)) :
    (store k v l).map Prod.fst =
      if k ∈ l.map Prod.fst then l.map Prod.fst else l.map Prod.fst ++ [k] := by
  induction l with
  | nil => simp [store]
  | cons e r ih =>
    obtain ⟨k', v'⟩ := e
    by_cases h : k' = k
    · simp [store, h]
    · have h' : ¬ k = k' := fun e => h e.symm
      simp only [store, if_neg h, List.map_cons, ih, List.mem_cons, h', false_or]
      split <;> simp

theorem find_store (k : String) (v : α) (l : List (String × α)) (q : String) :
    find q (store k v l) = if q = k then some v else find q l := by
  induction l with
  | nil =>
    by_cases h : q = k
    · simp [store, find, h]
    · have h' : ¬ k = q := fun e => h e.symm
      simp [store, find, h, h']
  | cons e r ih =>
    obtain ⟨k', v'⟩ := e
    by_cases h : k' = k
    · subst h
      by_cases hq : q = k'
      · simp [store, find, hq]
      · have hq' : ¬ k' = q := fun e => hq e.symm
        simp [store, find, hq, hq']
    · by_cases hq : k' = q
      · have : ¬ q = k := fun e => h (hq.trans e)
        simp [store, find, hq, this]
      · simp [store, find, h, hq, ih]

theorem nodup_store {k : String} {v : α} {l : List (String × α)} (h : (l.map Prod.fst).Nodup) :
    ((store k v l).map Prod.fst).Nodup := by
  rw [keys_store]
  split
  · exact h
  · rename_i hk
    rw [List.nodup_append]
    refine ⟨h, by simp, ?_⟩
    intro a ha b hb
    simp only [List.mem_singleton] at hb
    subst hb
    exact fun e => hk (e ▸ ha)

def insert (t : Table α) (k : String) (v : α) : Table α := ⟨store k v t.entries, nodup_store t.nodup⟩

/-- The table of a list of entries, stored one after the other. -/
def ofList (l : List (String × α)) : Table α := l.foldl (fun t e => t.insert e.1 e.2) ∅

/-- A value stored only where the key is free. -/
def insertNew (t : Table α) (k : String) (v : α) : Table α :=
  if t.contains k then t else t.insert k v

def size (t : Table α) : Nat := t.entries.length

@[simp] theorem get?_empty (k : String) : (∅ : Table α).get? k = none := rfl

@[simp] theorem keys_empty : (∅ : Table α).keys = [] := rfl

@[simp] theorem get?_insert (t : Table α) (k : String) (v : α) (q : String) :
    (t.insert k v).get? q = if q = k then some v else t.get? q :=
  find_store k v t.entries q

/-- What is found after a store is what was stored, or was found before. -/
theorem get?_insert_cases {t : Table α} {k q : String} {v w : α} (h : (t.insert k v).get? q = some w) :
    q = k ∧ w = v ∨ q ≠ k ∧ t.get? q = some w := by
  rw [get?_insert] at h
  by_cases hq : q = k
  · rw [if_pos hq] at h
    exact .inl ⟨hq, (Option.some.inj h).symm⟩
  · rw [if_neg hq] at h
    exact .inr ⟨hq, h⟩

theorem keys_insert (t : Table α) (k : String) (v : α) :
    (t.insert k v).keys = if k ∈ t.keys then t.keys else t.keys ++ [k] :=
  keys_store k v t.entries

theorem keys_nodup (t : Table α) : t.keys.Nodup := t.nodup

theorem isSome_find {k : String} {l : List (String × α)} : (find k l).isSome = true ↔ k ∈ l.map Prod.fst := by
  induction l with
  | nil => simp [find]
  | cons e r ih =>
    obtain ⟨k', v'⟩ := e
    by_cases h : k' = k
    · simp [find, h]
    · have h' : ¬ k = k' := fun e => h e.symm
      simp [find, h, h', ih]

theorem find_eq_some_iff {k : String} {v : α} {l : List (String × α)} (h : (l.map Prod.fst).Nodup) :
    find k l = some v ↔ (k, v) ∈ l := by
  induction l with
  | nil => simp [find]
  | cons e r ih =>
    obtain ⟨k', v'⟩ := e
    obtain ⟨hk, hr⟩ := List.nodup_cons.mp h
    by_cases hkk : k' = k
    · subst hkk
      have hno : (k', v) ∉ r := fun hm => hk (List.mem_map.mpr ⟨_, hm, rfl⟩)
      simp [find, hno, eq_comm]
    · have hkk' : ¬ k = k' := fun e => hkk e.symm
      simp [find, hkk, hkk', ih hr]

theorem get?_eq_some_iff {t : Table α} {k : String} {v : α} : t.get? k = some v ↔ (k, v) ∈ t.toList :=
  find_eq_some_iff t.nodup

theorem mem_values_iff {t : Table α} {v : α} : v ∈ t.values ↔ ∃ k, t.get? k = some v := by
  constructor
  · intro h
    obtain ⟨⟨k, w⟩, hm, rfl⟩ := List.mem_map.mp h
    exact ⟨k, get?_eq_some_iff.mpr hm⟩
  · rintro ⟨k, h⟩
    exact List.mem_map.mpr ⟨(k, v), get?_eq_some_iff.mp h, rfl⟩

theorem mem_keys_iff {t : Table α} {k : String} : k ∈ t.keys ↔ ∃ v, t.get? k = some v := by
  rw [← Option.isSome_iff_exists]
  exact isSome_find.symm

theorem contains_iff {t : Table α} {k : String} : t.contains k = true ↔ k ∈ t.keys := isSome_find

end Table

end Portcullis
