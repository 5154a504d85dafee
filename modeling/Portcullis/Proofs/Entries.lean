/-
  Portcullis.Proofs.Entries — the entries of a map, made of a list in which keys may repeat.

  An entry under a key that is there keeps the keys as they are, and one under a new key goes
  last (`keys_insertEntry`). So the keys of a map differ (`apart_mapOf`), and a list is the map
  made of it if its keys differ (`mapOf_of_apart`) or if none of its entries was lost
  (`mapOf_of_length`).
-/

import Portcullis.Value

namespace Portcullis.Value

variable {α : Type}

/-! ## One entry -/

theorem keys_insertEntry (k : Value) (v : α) (es : List (Value × α)) :
    (insertEntry k v es).map Prod.fst = es.map Prod.fst ∨
      (∀ e ∈ es, sameKey e.1 k = false) ∧ insertEntry k v es = es ++ [(k, v)] := by
  induction es with
  | nil => exact .inr ⟨by simp, rfl⟩
  | cons e es ih =>
    rw [insertEntry]
    split
    · exact .inl rfl
    · rename_i hother
      refine ih.imp (congrArg (e.1 :: ·)) fun hnew => ⟨?_, congrArg (e :: ·) hnew.2⟩
      exact List.forall_mem_cons.mpr ⟨Bool.eq_false_iff.mpr hother, hnew.1⟩

theorem insertEntry_of_new {k : Value} {v : α} {es : List (Value × α)} (h : ∀ e ∈ es, sameKey e.1 k = false) :
    insertEntry k v es = es ++ [(k, v)] := by
  induction es with
  | nil => rfl
  | cons e es ih =>
    obtain ⟨he, hes⟩ := List.forall_mem_cons.mp h
    rw [insertEntry, if_neg (by simp [he]), ih hes]
    rfl

/-- An entry replaces one under the same key or is put last. -/
theorem insertEntry_cases (k : Value) (v : α) (es : List (Value × α)) :
    (insertEntry k v es).length = es.length ∨ insertEntry k v es = es ++ [(k, v)] :=
  (keys_insertEntry k v es).imp (fun hkeys => by simpa using congrArg List.length hkeys) And.right

theorem map_insertEntry {β : Type} (f : α → β) (k : Value) (v : α) (es : List (Value × α)) :
    (insertEntry k v es).map (fun e => (e.1, f e.2)) = insertEntry k (f v) (es.map fun e => (e.1, f e.2)) := by
  induction es with
  | nil => rfl
  | cons e es ih =>
    obtain ⟨k', v'⟩ := e
    rw [insertEntry, List.map_cons, insertEntry]
    split
    · rfl
    · rw [List.map_cons, ih]

/-! ## Keys that differ -/

/-- Entries under different keys, the first key of a pair being compared with the second. -/
def Apart (es : List (Value × α)) : Prop := es.Pairwise fun d e => sameKey d.1 e.1 = false

theorem Apart.insertEntry {es : List (Value × α)} (h : Apart es) (k : Value) (v : α) :
    Apart (Value.insertEntry k v es) := by
  rcases keys_insertEntry k v es with hkeys | ⟨hnew, hlast⟩
  · have hes : (es.map Prod.fst).Pairwise fun d e => sameKey d e = false := List.pairwise_map.mpr h
    exact List.pairwise_map.mp (hkeys ▸ hes)
  · rw [hlast]
    refine List.pairwise_append.mpr ⟨h, List.pairwise_singleton _ _, fun d hd e he => ?_⟩
    rw [List.mem_singleton.mp he]
    exact hnew d hd

/-- A text is not a key twice. -/
theorem Apart.not_mem_of_cons {es : List (Value × α)} {s : String} {v : α} (h : Apart ((.text s, v) :: es)) (w : α) :
    (.text s, w) ∉ es := fun hw => by
  have hsame := (List.pairwise_cons.mp h).1 _ hw
  simp [sameKey] at hsame

/-! ## All entries -/

theorem apart_mapOf (es : List (Value × α)) : Apart (mapOf es) := by
  have hfold : ∀ made : List (Value × α), Apart made →
      Apart (es.foldl (fun made e => Value.insertEntry e.1 e.2 made) made) := by
    induction es with
    | nil => exact fun made h => h
    | cons e es ih => exact fun made h => ih _ (h.insertEntry e.1 e.2)
  exact hfold [] List.Pairwise.nil

theorem mapOf_of_apart {es : List (Value × α)} (h : Apart es) : mapOf es = es := by
  have hfold : ∀ made : List (Value × α), Apart (made ++ es) →
      es.foldl (fun made e => Value.insertEntry e.1 e.2 made) made = made ++ es := by
    clear h
    induction es with
    | nil => simp
    | cons e es ih =>
      intro made hapart
      have hnew : ∀ d ∈ made, sameKey d.1 e.1 = false := fun d hd =>
        (List.pairwise_append.mp hapart).2.2 d hd e List.mem_cons_self
      rw [List.foldl_cons, insertEntry_of_new hnew, ih _ (by simpa using hapart)]
      simp
  exact hfold [] (by simpa using h)

theorem foldl_insertEntry (es made : List (Value × α)) :
    (es.foldl (fun made e => insertEntry e.1 e.2 made) made).length < made.length + es.length ∨
      es.foldl (fun made e => insertEntry e.1 e.2 made) made = made ++ es := by
  induction es generalizing made with
  | nil => exact .inr (by simp)
  | cons e es ih =>
    rw [List.foldl_cons, List.length_cons]
    rcases insertEntry_cases e.1 e.2 made with hlength | hlast
    · left
      rcases ih (insertEntry e.1 e.2 made) with h | h
      · omega
      · rw [h, List.length_append]
        omega
    · rw [hlast]
      rcases ih (made ++ [(e.1, e.2)]) with h | h
      · left
        simp only [List.length_append, List.length_singleton] at h
        omega
      · right
        rw [h, List.append_assoc]
        rfl

/-- Of as many entries as before none has been replaced. -/
theorem mapOf_of_length {es : List (Value × α)} (h : (mapOf es).length = es.length) : mapOf es = es := by
  rcases foldl_insertEntry es [] with hlt | heq
  · exact absurd h (Nat.ne_of_lt (by simpa [mapOf] using hlt))
  · exact heq

theorem map_mapOf {β : Type} (f : α → β) (es : List (Value × α)) :
    (mapOf es).map (fun e => (e.1, f e.2)) = mapOf (es.map fun e => (e.1, f e.2)) := by
  have hfold : ∀ made : List (Value × α),
      (es.foldl (fun made e => insertEntry e.1 e.2 made) made).map (fun e => (e.1, f e.2)) =
        (es.map fun e => (e.1, f e.2)).foldl (fun made e => insertEntry e.1 e.2 made)
          (made.map fun e => (e.1, f e.2)) := by
    induction es with
    | nil => exact fun _ => rfl
    | cons e es ih =>
      intro made
      rw [List.foldl_cons, ih, map_insertEntry]
      rfl
  exact hfold []

end Portcullis.Value
