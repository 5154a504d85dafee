/-
  Portcullis.Proofs.Rendering — the text of a program, read again.

  The tables of a program are nested six deep at most, so no line is so far indented that it has
  to be folded at its first word, and their keys are the ones of the writer, except for those of
  the declarations.
  - `exists_render`: the text of a program is read if and only if each declared key ends before
    it is given up as a key, and then as the program is seen.
  - `program_read_back_iff`: it is read as the program itself if and only if, besides, no text
    with a next line in it stands in single quotes (`Clear`).
-/

import Portcullis.Proofs.Listing
import Portcullis.Proofs.Yaml.Reading

namespace Portcullis

namespace Yaml

/-! ## Keys in reach -/

theorem length_escape_le (c : Char) : (escape c).length ≤ 10 := by
  unfold escape
  split
  · simp
  · have hupper : ∀ w n : Nat, (Text.Hex.upper w n).length = w := Text.Hex.length_fixed _
    simp only []
    split
    · simp [hupper]
    · split <;> simp [hupper]

theorem length_writeDoubleChars_le (i c : Nat) (inner fresh : Bool) (cs : List Char) :
    (writeDoubleChars i false inner fresh c cs).length ≤ 10 * cs.length := by
  induction cs generalizing c inner fresh with
  | nil => simp [writeDoubleChars]
  | cons e r ih =>
    have hescape := length_escape_le e
    rw [writeDoubleChars]
    simp only [Bool.false_and, Bool.false_eq_true, if_false, List.length_cons]
    split
    · have hr := ih (c + 1) true false
      rw [List.length_cons]
      omega
    · have hr := ih (c + (escape e).length) true true
      rw [List.length_append]
      omega

theorem length_doubleQuotes_le (cs : List Char) : (doubleQuotes cs).length ≤ 2 * cs.length := by
  induction cs with
  | nil => simp [doubleQuotes]
  | cons c r ih =>
    have hcons : doubleQuotes (c :: r) = (if c = '\'' then ['\'', '\''] else [c]) ++ doubleQuotes r := List.flatMap_cons
    rw [hcons, List.length_append, List.length_cons]
    split <;> simp only [List.length_cons, List.length_nil] <;> omega

theorem length_writeSingleRuns_le (i c : Nat) (inner : Bool) {rs : List (RunClass × List Char)}
    (hline : ∀ run ∈ rs, run.1 ≠ .breaks) :
    (writeSingleRuns i false inner c rs).length ≤ 2 * (rs.flatMap Prod.snd).length := by
  induction rs generalizing c inner with
  | nil => simp [writeSingleRuns]
  | cons run rs ih =>
    obtain ⟨k, cs⟩ := run
    obtain ⟨hk, hlines⟩ := List.forall_mem_cons.mp hline
    have hquotes := length_doubleQuotes_le cs
    have hsum : (((k, cs) :: rs).flatMap Prod.snd).length = cs.length + (rs.flatMap Prod.snd).length := by
      rw [List.flatMap_cons, List.length_append]
    cases k with
    | breaks => exact absurd rfl hk
    | space =>
      have hrs := ih (c + cs.length) true hlines
      rw [writeSingleRuns, if_neg (by simp), List.length_append]
      omega
    | other =>
      have hrs := ih (c + (doubleQuotes cs).length) true hlines
      rw [writeSingleRuns, List.length_append]
      omega

/-- An escape takes ten characters at most, so a short key is in reach whatever it holds. -/
theorem inReach_of_length {k : String} (h : 10 * k.length + 2 ≤ keyReach) : InReach k := by
  intro hsimple
  have hline := line_of_isSimpleKey hsimple
  rw [← String.length_toList] at h
  unfold writeScalar
  split
  · rw [writePlainRuns_unfolded, flatMap_runs]
    omega
  · have hle := length_writeSingleRuns_le 0 1 false fun run hrun => ne_breaks_of_mem hline hrun
    rw [flatMap_runs] at hle
    unfold writeSingle
    simp only [Nat.zero_add, List.length_append, List.length_cons, List.length_nil]
    omega
  · have hle := length_writeDoubleChars_le 0 1 false true k.toList
    unfold writeDouble
    simp only [Nat.zero_add, List.length_append, List.length_cons, List.length_nil]
    omega

/-- With one character more, each of which takes an escape of ten, a key is not. -/
example : ¬ InReach (String.ofList (List.replicate 103 (Char.ofNat 0x10FFFF))) := by
  unfold InReach
  rw [String.toList_ofList]
  decide +kernel

/-! ## Trees that fit -/

variable {kind : String → Prop} {n : Nat}

theorem keyedItems_iff {ts : List Tree} : KeyedItems kind n ts ↔ ∀ t ∈ ts, Keyed kind n t := by
  induction ts with
  | nil => simp [KeyedItems]
  | cons t ts ih => rw [KeyedItems, ih, List.forall_mem_cons]

theorem keyedEntries_iff {es : List (String × Tree)} :
    KeyedEntries kind n es ↔ ∀ e ∈ es, kind e.1 ∧ Keyed kind n e.2 := by
  induction es with
  | nil => simp [KeyedEntries]
  | cons e es ih => rw [KeyedEntries, ih, List.forall_mem_cons, and_assoc]

mutual

theorem Keyed.imp {kind' : String → Prop} (himp : ∀ k, kind k → kind' k) {n : Nat} (t : Tree) (h : Keyed kind n t) :
    Keyed kind' n t := by
  match t, n, h with
  | .text _, _, _ => simp [Keyed]
  | .flag _, _, _ => simp [Keyed]
  | .list ts, n + 1, h => exact KeyedItems.imp himp ts h
  | .table es, n + 1, h => exact KeyedEntries.imp himp es h

theorem KeyedItems.imp {kind' : String → Prop} (himp : ∀ k, kind k → kind' k) {n : Nat} (ts : List Tree)
    (h : KeyedItems kind n ts) : KeyedItems kind' n ts := by
  match ts, h with
  | [], _ => trivial
  | t :: ts, h => exact ⟨Keyed.imp himp t h.1, KeyedItems.imp himp ts h.2⟩

theorem KeyedEntries.imp {kind' : String → Prop} (himp : ∀ k, kind k → kind' k) {n : Nat} (es : List (String × Tree))
    (h : KeyedEntries kind n es) : KeyedEntries kind' n es := by
  match es, h with
  | [], _ => trivial
  | (k, t) :: es, h => exact ⟨himp k h.1, Keyed.imp himp t h.2.1, KeyedEntries.imp himp es h.2.2⟩

end

theorem distinctItems_iff {ts : List Tree} : DistinctItems ts ↔ ∀ t ∈ ts, Distinct t := by
  induction ts with
  | nil => simp [DistinctItems]
  | cons t ts ih => rw [DistinctItems, ih, List.forall_mem_cons]

theorem distinctEntries_iff {es : List (String × Tree)} : DistinctEntries es ↔ ∀ e ∈ es, Distinct e.2 := by
  induction es with
  | nil => simp [DistinctEntries]
  | cons e es ih => rw [DistinctEntries, ih, List.forall_mem_cons]

structure Fits (n : Nat) (t : Tree) : Prop where
  keyed : Keyed InReach n t
  distinct : Distinct t

theorem fits_text (n : Nat) (s : String) : Fits n (.text s) := ⟨by simp [Keyed], by simp [Distinct]⟩

theorem fits_flag (n : Nat) (b : Bool) : Fits n (.flag b) := ⟨by simp [Keyed], by simp [Distinct]⟩

theorem fits_list {ts : List Tree} (h : ∀ t ∈ ts, Fits n t) : Fits (n + 1) (.list ts) where
  keyed := by
    rw [Keyed]
    exact keyedItems_iff.mpr fun t ht => (h t ht).keyed
  distinct := by
    rw [Distinct]
    exact distinctItems_iff.mpr fun t ht => (h t ht).distinct

theorem fits_texts (n : Nat) (xs : List String) : Fits (n + 1) (Tree.texts xs) :=
  fits_list fun t ht => by
    obtain ⟨s, -, rfl⟩ := List.mem_map.mp ht
    exact fits_text n s

/-- A table whose keys are given, different and short. -/
theorem fits_fields {es : List (String × Tree)} (names : List String) (hes : es.map Prod.fst = names)
    (hnames : names.Nodup ∧ ∀ k ∈ names, 10 * k.length + 2 ≤ keyReach) (h : ∀ t ∈ es.map Prod.snd, Fits n t) :
    Fits (n + 1) (.table es) := by
  subst hes
  have hvalues : ∀ e ∈ es, Fits n e.2 := fun e he => h e.2 (List.mem_map_of_mem he)
  constructor
  · rw [Keyed]
    exact keyedEntries_iff.mpr fun e he =>
      ⟨inReach_of_length (hnames.2 e.1 (List.mem_map_of_mem he)), (hvalues e he).keyed⟩
  · rw [Distinct]
    exact ⟨hnames.1, distinctEntries_iff.mpr fun e he => (hvalues e he).distinct⟩

theorem indentStep_range (n : Int) : 2 ≤ indentStep n ∧ indentStep n ≤ 9 := by
  unfold indentStep
  split
  · rename_i h
    simp only [Bool.and_eq_true, decide_eq_true_eq] at h
    omega
  · omega

end Yaml

namespace Program

open Portcullis.Yaml Portcullis.Tree

variable {out : Output} {w : Options}

/-! ## The tables of a program -/

theorem fits_object {type : String} {properties : List (String × Tree)} (h : Fits 4 (.table properties)) :
    Fits 5 (object w type properties) :=
  fits_fields ["type", "properties"] rfl (by decide) (by simp [typeToken, fits_text, h])

theorem fits_group (g : GroupDeclaration) : Fits 5 (group w g) := by
  unfold group
  split
  · exact fits_object (fits_fields ["name", "peers"] rfl (by decide) (by simp [fits_text, fits_texts]))
  · exact fits_object (fits_fields ["name", "peers", "resources"] rfl (by decide) (by simp [fits_text, fits_texts]))

theorem fits_resource (r : ResourceDeclaration) : Fits 5 (resource w r) := by
  have hnone : Fits 4 (.table [("name", .text r.name), ("address", .text r.address), ("enabled", .flag true)]) :=
    fits_fields ["name", "address", "enabled"] rfl (by decide) (by simp [fits_text, fits_flag])
  unfold resource network
  split
  · exact fits_object hnone
  · split
    · exact fits_object hnone
    · exact fits_object (fits_fields ["name", "address", "enabled", "network_id"] rfl (by decide)
        (by simp [fits_text, fits_flag]))

/-- A result that was made of another one. -/
theorem exists_of_map_ok {α β : Type} {f : α → β} {outcome : Except Fault α} {y : β} (h : outcome.map f = .ok y) :
    ∃ x, outcome = .ok x ∧ f x = y := by
  cases outcome with
  | error e => cases h
  | ok x => exact ⟨x, rfl, Except.ok.inj h⟩

/-- Where a rule leads stands under a key of the writer. -/
theorem fits_destinations {kind : PolicyKind} {r : PolicyRule} {target : String × Tree}
    (h : (destinations out kind r).2 = .ok target) :
    (target.1 = "destinations" ∨ target.1 = "destinationResource") ∧ Fits 1 target.2 := by
  unfold destinations at h
  cases kind with
  | groupToGroup =>
    cases h
    exact ⟨.inl rfl, fits_texts 0 _⟩
  | groupToResource =>
    simp only at h
    split at h
    · obtain ⟨type, -, rfl⟩ := exists_of_map_ok h
      exact ⟨.inr rfl, fits_fields ["id", "type"] rfl (by decide) (by simp [fits_text])⟩
    · cases h

/-- The keys of a written rule, the last one apart. -/
def ruleKeys (r : PolicyRule) : List String :=
  ["name", "action", "enabled", "bidirectional", "protocol"] ++ (if r.ports = [] then [] else ["ports"]) ++ ["sources"]

theorem fits_policyRule {kind : PolicyKind} {r : PolicyRule} {t : Tree} (h : (policyRule out kind r).2 = .ok t) :
    Fits 2 t := by
  obtain ⟨⟨key, place⟩, htarget, rfl⟩ := exists_of_map_ok h
  obtain ⟨hkey, hplace⟩ := fits_destinations htarget
  refine fits_fields (ruleKeys r ++ [key]) ?_ ?_ ?_
  · unfold ruleKeys
    split <;> rfl
  · unfold ruleKeys
    rcases hkey with rfl | rfl <;> split <;> decide
  · split <;> simp [fits_text, fits_flag, fits_texts, hplace]

/-- The members of a list of results were made one by one. -/
theorem mem_of_logEach_ok {α β : Type} {f : α → Logged β} {xs : List α} {ys : List β} (h : (logEach f xs).2 = .ok ys)
    {y : β} (hy : y ∈ ys) : ∃ x ∈ xs, (f x).2 = .ok y := by
  induction xs generalizing ys with
  | nil =>
    cases h
    cases hy
  | cons x xs ih =>
    rw [logEach] at h
    rcases hfirst : f x with ⟨log, outcome⟩
    rw [hfirst] at h
    cases outcome with
    | error e => cases h
    | ok first =>
      obtain ⟨rest, hrest, rfl⟩ := exists_of_map_ok h
      rcases List.mem_cons.mp hy with rfl | hy
      · exact ⟨x, List.mem_cons_self, congrArg Prod.snd hfirst⟩
      · obtain ⟨x', hx', hmade⟩ := ih hrest hy
        exact ⟨x', List.mem_cons_of_mem _ hx', hmade⟩

theorem fits_policy {p : PolicyDeclaration} {t : Tree} (h : (policy w out p).2 = .ok t) : Fits 5 t := by
  obtain ⟨rules, hrules, rfl⟩ := exists_of_map_ok h
  have hfits : Fits 3 (.list rules) := fits_list fun t ht => by
    obtain ⟨r, -, hr⟩ := mem_of_logEach_ok hrules ht
    exact fits_policyRule hr
  refine fits_object (fits_fields ["name", "description", "enabled", "rules"] rfl (by decide) ?_)
  simp [fits_text, fits_flag, hfits]

theorem fits_entry {d : Declaration} {e : String × Tree} (h : (entry w out d).2 = .ok e) :
    e.1 = d.key ∧ Fits 5 e.2 := by
  cases d with
  | group g =>
    cases h
    exact ⟨rfl, fits_group g⟩
  | resource r =>
    cases h
    exact ⟨rfl, fits_resource r⟩
  | policy p =>
    obtain ⟨t, ht, rfl⟩ := exists_of_map_ok h
    exact ⟨rfl, fits_policy ht⟩

/-- What stands under the keys of a program fits. -/
theorem fits_of_mem {entries : List (String × Tree)} (h : out.Programmed w entries) {e : String × Tree}
    (he : e ∈ entries) :
    Fits 5 e.2 := by
  have hmem : e.1 ∈ out.keys := h.keys.mem_iff.mp (List.mem_map_of_mem he)
  obtain ⟨d, hd, hkey⟩ := List.mem_map.mp hmem
  obtain ⟨e', he', hkey', hentry⟩ := h.entry d hd
  -- The entry is the one that was written for its declaration, since no other has its key.
  obtain rfl : e' = e := List.inj_on_of_nodup_map h.ascending.nodup he' he (hkey'.trans hkey)
  exact (fits_entry (congrArg Prod.snd hentry)).2

/-- The keys of a program are those of the writer and of the declarations. -/
theorem keyed_program {kind : String → Prop} (hkind : ∀ k, InReach k → kind k) {entries : List (String × Tree)}
    (h : out.Programmed w entries) : KeyedEntries kind 6 [("resources", .table entries)] ↔ ∀ k ∈ out.keys, kind k := by
  have hresources : kind "resources" := hkind _ (inReach_of_length (by decide))
  rw [KeyedEntries, KeyedEntries, Keyed, keyedEntries_iff]
  constructor
  · rintro ⟨-, hentries, -⟩ k hk
    obtain ⟨e, he, rfl⟩ := List.mem_map.mp (h.keys.mem_iff.mpr hk)
    exact (hentries e he).1
  · intro hkeys
    refine ⟨hresources, fun e he => ⟨hkeys e.1 (h.keys.mem_iff.mp (List.mem_map_of_mem he)), ?_⟩, trivial⟩
    exact (fits_of_mem h he).keyed.imp hkind

theorem distinct_program {entries : List (String × Tree)} (h : out.Programmed w entries) :
    Distinct (.table [("resources", .table entries)]) := by
  rw [Distinct, distinctEntries_iff]
  refine ⟨by simp, fun e he => ?_⟩
  obtain rfl := List.mem_singleton.mp he
  rw [Distinct, distinctEntries_iff]
  exact ⟨h.ascending.nodup, fun e he => (fits_of_mem h he).distinct⟩

/-- A written program has a text. That is read if and only if the keys are in reach, and then as the
    program is seen. -/
theorem exists_render (h : Writable out) (w : Options) : ∃ program text,
    out.toProgram w = ([], .ok program) ∧ out.render w = ([], .ok text) ∧ Distinct (.table program) ∧
      ((∀ k ∈ out.keys, InReach k) → ∃ strand, Yaml.read (Text.unifyBreaks text.toList) = .ok strand ∧
        strand.value = seenValue (.table program)) ∧
      ∀ strand, Yaml.read (Text.unifyBreaks text.toList) = .ok strand → ∀ k ∈ out.keys, InReach k := by
  obtain ⟨entries, hprogram, hprogrammed⟩ := programmed_of_writable h w
  have hrender : out.render w = ([], .ok (String.ofList
      (writeDocument (indentStep w.yamlIndent) [("resources", .table entries)]))) := by
    unfold Output.render
    rw [hprogram]
    rfl
  obtain ⟨hleast, hmost⟩ := indentStep_range w.yamlIndent
  have hwidth : (6 + 1) * indentStep w.yamlIndent + 1 ≤ lineWidth := by
    unfold lineWidth
    omega
  have hkeys := keyed_program (fun _ hk => hk) hprogrammed
  refine ⟨_, _, hprogram, hrender, distinct_program hprogrammed, ?_, ?_⟩
  · rw [String.toList_ofList, ← hkeys]
    exact read_writeDocument hleast hwidth
  · rw [String.toList_ofList, ← hkeys]
    intro strand hread
    by_contra hno
    have hany : KeyedEntries (fun _ => True) 6 [("resources", .table entries)] :=
      (keyed_program (fun _ _ => trivial) hprogrammed).mpr fun _ _ => trivial
    exact not_read_writeDocument hleast hwidth hany hno strand hread

end Program

namespace Compiler

open Portcullis.Graph Portcullis.Program Portcullis.Yaml

/-- A document that compiles without errors is rendered, whatever the options of the writer, and
    the text is read as the program that it was written from if and only if each declared key is
    in reach and the program is clear. -/
theorem program_read_back_iff {d : Document} {o : Options} {res : Result} (h : (compile d o).1 = .ok res)
    (he : res.errors = []) : ∃ out, res.output = some out ∧ ∀ w : Options, ∃ program text,
      out.toProgram w = ([], .ok program) ∧ out.render w = ([], .ok text) ∧
        ((∃ strand, Yaml.read (Text.unifyBreaks text.toList) = .ok strand ∧
            strand.value = (Tree.table program).toValue) ↔
          (∀ k ∈ out.keys, InReach k) ∧ Clear (.table program)) := by
  obtain ⟨m, declared, ht⟩ := exists_tables h he
  have hm := Membership.ofNames_of_ofTable ht.membership
  obtain ⟨out, hout, -⟩ := emit?_some (compile d o).2.graph m o
  refine ⟨out, (output_eq ht h he).trans hout, fun w => ?_⟩
  obtain ⟨program, text, hprogram, htext, hdistinct, hseen, hreach⟩ :=
    exists_render ((compile_spec ht h).1.writable hm hout) w
  refine ⟨program, text, hprogram, htext, ?_⟩
  rw [← seenValue_eq_iff _ hdistinct]
  constructor
  · rintro ⟨strand, hread, hsame⟩
    have hkeys := hreach strand hread
    obtain ⟨strand', hread', hvalue⟩ := hseen hkeys
    obtain rfl : strand = strand' := Except.ok.inj (hread.symm.trans hread')
    exact ⟨hkeys, hvalue.symm.trans hsame⟩
  · rintro ⟨hkeys, hsame⟩
    obtain ⟨strand, hread, hvalue⟩ := hseen hkeys
    exact ⟨strand, hread, hvalue.trans hsame⟩

def lone (name : String) : Document := { groups := Table.ofList [(name, [])] }

def loneOutput (name : String) : Output := { groups := [{ key := "group-" ++ name, name }] }

def declaring (out : Output) : Result :=
  { status := .success, output := some out, errors := [], warnings := [], sourceRuleCount := 0,
    destinationRuleTotal := 0 }

def loneProgram (key name : String) : List (String × Tree) :=
  [("resources", .table [(key, .table [("type", .text "netbird:resource:Group"),
    ("properties", .table [("name", .text name), ("peers", .list [])])])])]

theorem toProgram_lone (name : String) :
    (loneOutput name).toProgram {} = ([], .ok (loneProgram ("group-" ++ name) name)) := by
  have hsorted : Declaration.sorted (loneOutput name).declarations = [.group { key := "group-" ++ name, name }] := by
    simp [Declaration.sorted, Output.declarations, loneOutput]
  unfold Output.toProgram
  rw [hsorted]
  rfl

theorem writable_lone (name : String) : Writable (loneOutput name) where
  nodup := by simp [loneOutput, Output.keys, Output.declarations]
  reaches := by simp [loneOutput]

theorem eq_ok_of_toOption {ε α : Type} {x : Except ε α} {a : α} (h : x.toOption = some a) : x = .ok a := by
  cases x with
  | error e => cases h
  | ok b => exact congrArg Except.ok (Option.some.inj h)

/-- A name of two lines is read back; its key stands behind a question mark. -/
theorem two_lines_read_back : ∃ text strand,
    (compile (lone "night\nshift")).1 = .ok (declaring (loneOutput "night\nshift")) ∧
      (loneOutput "night\nshift").render {} = ([], .ok text) ∧
      Yaml.read (Text.unifyBreaks text.toList) = .ok strand ∧
      strand.value = (Tree.table (loneProgram "group-night\nshift" "night\nshift")).toValue := by
  have hcompiled : (compile (lone "night\nshift")).1 = .ok (declaring (loneOutput "night\nshift")) :=
    eq_ok_of_toOption (by decide +kernel)
  have hclear : Clear (.table (loneProgram "group-night\nshift" "night\nshift")) := by
    simp only [loneProgram, Clear, ClearEntries, ClearItems, and_true]
    decide +kernel
  obtain ⟨out, hout, hwritten⟩ := program_read_back_iff hcompiled rfl
  obtain rfl : loneOutput "night\nshift" = out := Option.some.inj hout
  obtain ⟨program, text, hprogram, htext, hiff⟩ := hwritten {}
  obtain rfl : loneProgram "group-night\nshift" "night\nshift" = program :=
    Except.ok.inj (congrArg Prod.snd ((toProgram_lone _).symm.trans hprogram))
  have hreach : ∀ k ∈ (loneOutput "night\nshift").keys, InReach k := by
    simpa [loneOutput, Output.keys, Output.declarations] using inReach_of_length (by decide)
  obtain ⟨strand, hread, hvalue⟩ := hiff.mpr ⟨hreach, hclear⟩
  exact ⟨text, strand, hcompiled, htext, hread, hvalue⟩

/-- A name with a next line in it is read back with a space instead. -/
theorem a_next_line_is_lost : ∃ text strand,
    (compile (lone "b\u0085c")).1 = .ok (declaring (loneOutput "b\u0085c")) ∧
      (loneOutput "b\u0085c").toProgram {} = ([], .ok (loneProgram "group-b\u0085c" "b\u0085c")) ∧
      (loneOutput "b\u0085c").render {} = ([], .ok text) ∧
      Yaml.read (Text.unifyBreaks text.toList) = .ok strand ∧
      strand.value = (Tree.table (loneProgram "group-b c" "b c")).toValue ∧
      strand.value ≠ (Tree.table (loneProgram "group-b\u0085c" "b\u0085c")).toValue := by
  have hcompiled : (compile (lone "b\u0085c")).1 = .ok (declaring (loneOutput "b\u0085c")) :=
    eq_ok_of_toOption (by decide +kernel)
  obtain ⟨program, text, hprogram, htext, -, hseen, -⟩ := exists_render (writable_lone "b\u0085c") {}
  obtain rfl : loneProgram "group-b\u0085c" "b\u0085c" = program :=
    Except.ok.inj (congrArg Prod.snd ((toProgram_lone _).symm.trans hprogram))
  have hreach : ∀ k ∈ (loneOutput "b\u0085c").keys, InReach k := by
    simpa [loneOutput, Output.keys, Output.declarations] using inReach_of_length (by decide)
  obtain ⟨strand, hread, hvalue⟩ := hseen hreach
  have hlost : seenValue (.table (loneProgram "group-b\u0085c" "b\u0085c")) =
      (Tree.table (loneProgram "group-b c" "b c")).toValue := by
    have hkey : String.ofList ((keyStyle "group-b\u0085c".toList).seen "group-b\u0085c".toList) = "group-b c" := by
      decide +kernel
    have hname : String.ofList ((valueStyle "b\u0085c".toList).seen "b\u0085c".toList) = "b c" := by decide +kernel
    have hkept : ∀ (style : Style) (s : String), nextLine ∉ s.toList → String.ofList (style.seen s.toList) = s :=
      fun style s hs => (ofList_seen_iff style s).mpr fun _ => hs
    simp only [loneProgram, seenValue, seenEntries, seenItems, hkey, hname]
    rw [hkept _ "resources" (by decide), hkept _ "type" (by decide), hkept _ "netbird:resource:Group" (by decide),
      hkept _ "properties" (by decide), hkept _ "name" (by decide), hkept _ "peers" (by decide)]
    rfl
  refine ⟨text, strand, hcompiled, hprogram, htext, hread, hvalue.trans hlost, ?_⟩
  rw [hvalue, hlost]
  simp [loneProgram, Tree.toValue, Tree.entryValues]

end Compiler

end Portcullis
