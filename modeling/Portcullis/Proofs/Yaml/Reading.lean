/-
  Portcullis.Proofs.Yaml.Reading — what a written document is read as.

  In double quotes and without quotes a text comes back as it was. In single quotes a next line
  comes back as a space or as a line feed, so a tree comes back exactly if no text with a next
  line in it stands there (`Clear`). And a key on one line has to end before it is given up as a
  key (`InReach`).
  - `read_writeDocument`, `not_read_writeDocument`: a document whose keys are in reach is read as
    its table is seen, and one with a key beyond that is not read.
  - `seenValue_eq_iff`: the table is seen as itself if and only if it is clear.
-/

import Portcullis.Proofs.Yaml.Beyond
import Portcullis.Proofs.Yaml.Consumed
import Portcullis.Proofs.Yaml.Values
import Portcullis.Text.Lines
import Portcullis.Yaml.Read

namespace Portcullis.Yaml

/-! ## Trees that come back -/

theorem seen_eq_iff (style : Style) (cs : List Char) : style.seen cs = cs ↔ (style = .single → nextLine ∉ cs) := by
  cases style with
  | single => simpa [Style.seen] using seenRuns_eq_iff cs
  | plain => simp [Style.seen]
  | double => simp [Style.seen]

theorem ofList_seen_iff (style : Style) (s : String) :
    String.ofList (style.seen s.toList) = s ↔ (style = .single → nextLine ∉ s.toList) := by
  rw [← seen_eq_iff]
  constructor
  · intro h
    have hchars := congrArg String.toList h
    rwa [String.toList_ofList] at hchars
  · intro h
    rw [h, String.ofList_toList]

mutual

/-- No text that stands in single quotes holds a next line. -/
def Clear : Tree → Prop
  | .text s => valueStyle s.toList = .single → nextLine ∉ s.toList
  | .flag _ => True
  | .list ts => ClearItems ts
  | .table es => ClearEntries es

def ClearItems : List Tree → Prop
  | [] => True
  | t :: ts => Clear t ∧ ClearItems ts

def ClearEntries : List (String × Tree) → Prop
  | [] => True
  | (k, t) :: es => (keyStyle k.toList = .single → nextLine ∉ k.toList) ∧ Clear t ∧ ClearEntries es

end

mutual

def Distinct : Tree → Prop
  | .text _ | .flag _ => True
  | .list ts => DistinctItems ts
  | .table es => (es.map Prod.fst).Nodup ∧ DistinctEntries es

def DistinctItems : List Tree → Prop
  | [] => True
  | t :: ts => Distinct t ∧ DistinctItems ts

def DistinctEntries : List (String × Tree) → Prop
  | [] => True
  | (_, t) :: es => Distinct t ∧ DistinctEntries es

end

theorem length_seenEntries (es : List (String × Tree)) : (seenEntries es).length = (Tree.entryValues es).length := by
  induction es with
  | nil => rfl
  | cons e es ih =>
    obtain ⟨k, t⟩ := e
    rw [seenEntries, Tree.entryValues, List.length_cons, List.length_cons, ih]

theorem mapOf_entryValues {es : List (String × Tree)} (h : (es.map Prod.fst).Nodup) :
    Value.mapOf (Tree.entryValues es) = Tree.entryValues es := by
  refine Value.mapOf_of_apart ?_
  have hkeys : ∀ (es : List (String × Tree)) (e : Value × Value), e ∈ Tree.entryValues es →
      ∃ k ∈ es.map Prod.fst, e.1 = .text k := by
    intro es
    induction es with
    | nil => intro e he; cases he
    | cons e es ih =>
      obtain ⟨k, t⟩ := e
      rw [Tree.entryValues]
      intro e he
      rcases List.mem_cons.mp he with rfl | he
      · exact ⟨k, by simp, rfl⟩
      · obtain ⟨k', hk', he'⟩ := ih e he
        exact ⟨k', List.mem_cons_of_mem _ hk', he'⟩
  induction es with
  | nil => exact .nil
  | cons e es ih =>
    obtain ⟨k, t⟩ := e
    obtain ⟨hk, hes⟩ := List.nodup_cons.mp h
    rw [Tree.entryValues]
    refine .cons (fun e he => ?_) (ih hes)
    obtain ⟨k', hk', he'⟩ := hkeys es e he
    have hne : k ≠ k' := fun h => hk (h ▸ hk')
    simp [he', Value.sameKey, hne]

mutual

/-- A tree comes back if and only if it is clear. -/
theorem seenValue_eq_iff (t : Tree) (h : Distinct t) : seenValue t = t.toValue ↔ Clear t := by
  match t, h with
  | .text s, _ =>
    rw [seenValue, Tree.toValue, Value.text.injEq, Clear]
    exact ofList_seen_iff _ s
  | .flag b, _ => simp [seenValue, Tree.toValue, Clear]
  | .list ts, h =>
    rw [seenValue, Tree.toValue, Value.list.injEq, Clear]
    exact seenItems_eq_iff ts h
  | .table es, h =>
    rw [seenValue, Tree.toValue, Value.map.injEq, Clear, ← seenEntries_eq_iff es h.2]
    constructor
    · intro heq
      have hlength := congrArg List.length heq
      rwa [Value.mapOf_of_length (hlength.trans (length_seenEntries es).symm)] at heq
    · intro heq
      rw [heq, mapOf_entryValues h.1]

theorem seenItems_eq_iff (ts : List Tree) (h : DistinctItems ts) :
    seenItems ts = Tree.itemValues ts ↔ ClearItems ts := by
  match ts, h with
  | [], _ => simp [seenItems, Tree.itemValues, ClearItems]
  | t :: ts, h =>
    rw [seenItems, Tree.itemValues, List.cons.injEq, ClearItems]
    exact and_congr (seenValue_eq_iff t h.1) (seenItems_eq_iff ts h.2)

theorem seenEntries_eq_iff (es : List (String × Tree)) (h : DistinctEntries es) :
    seenEntries es = Tree.entryValues es ↔ ClearEntries es := by
  match es, h with
  | [], _ => simp [seenEntries, Tree.entryValues, ClearEntries]
  | (k, t) :: es, h =>
    rw [seenEntries, Tree.entryValues, List.cons.injEq, Prod.mk.injEq, Value.text.injEq, ClearEntries, and_assoc]
    exact and_congr (ofList_seen_iff _ k) (and_congr (seenValue_eq_iff t h.1) (seenEntries_eq_iff es h.2))

end

/-! ## Documents -/

/-- A document has only line feeds and characters that a stream may hold. -/
theorem read_written (step : Nat) (es : List (String × Tree)) :
    read (Text.unifyBreaks (writeDocument step es)) =
      (Grammar.document (tokensOf (writeDocument step es))).bind fun (root, nodes) => nodes.value root := by
  have hinked := inked_writeDocument step es
  have hunified : Text.unifyBreaks (writeDocument step es) = writeDocument step es :=
    Text.unifyBreaks_of_not_mem fun hmem => (hinked _ hmem).notReturn rfl
  have hallowed : (writeDocument step es).all isAllowed = true :=
    List.all_eq_true.mpr fun c hc => (hinked c hc).allowed
  unfold read
  rw [hunified, if_pos hallowed]
  rfl

/-- A written document is read, and each of its texts as its style lets it be seen. -/
theorem read_writeDocument {step n : Nat} (hstep : 2 ≤ step) (hwidth : (n + 1) * step + 1 ≤ lineWidth)
    {e : String × Tree} {es : List (String × Tree)} (hes : KeyedEntries InReach n (e :: es)) :
    ∃ strand, read (Text.unifyBreaks (writeDocument step (e :: es))) = .ok strand ∧
      strand.value = seenValue (.table (e :: es)) := by
  obtain ⟨ns, hns, hstores⟩ := Grammar.document_table (tokensOf_writeDocument hstep hwidth hes)
  obtain ⟨strand, hstrand, hvalue⟩ := Nodes.value_stored hstores
  refine ⟨strand, ?_, hvalue⟩
  rw [read_written, hns]
  exact hstrand

/-- A document with a key that is out of reach is not read. -/
theorem not_read_writeDocument {step n : Nat} (hstep : 2 ≤ step) (hwidth : (n + 1) * step + 1 ≤ lineWidth)
    {es : List (String × Tree)} (hes : KeyedEntries (fun _ => True) n es) (hno : ¬ KeyedEntries InReach n es)
    (strand : Strand) : read (Text.unifyBreaks (writeDocument step es)) ≠ .ok strand := by
  intro hread
  rw [read_written] at hread
  obtain ⟨r, hr, -⟩ := Grammar.exists_of_bind hread
  exact unended_writeDocument hstep hwidth hes hno (Grammar.streamEnd_of_document hr)

end Portcullis.Yaml
