/-
  Portcullis.Proofs.Frame — judging changes the slots of a rule only.

  The frame of a rule is the rule without its slots. No verdict changes it, whether the rule
  goes on, is stopped or makes the stage fail; so its index, its tokens and the keys of its
  policies stay as they are.
-/

import Portcullis.Compiler.Verdict

namespace Portcullis

def Rule.frame (r : Rule) : Rule := { r with sources := ∅, destinations := ∅ }

theorem Rule.frame_withSlot (r : Rule) (side : Side) (slot : Slot) : (r.withSlot side slot).frame = r.frame := by
  cases side <;> rfl

namespace Compiler

namespace Verdict

theorem frame_add (v : Verdict) (side : Side) (e : Endpoint) : (v.add side e).rule.frame = v.rule.frame := by
  unfold add Rule.add?
  cases (v.rule.slot side).add? e with
  | none => rfl
  | some slot => exact Rule.frame_withSlot v.rule side slot

theorem frame_each {α : Type} {f : Verdict → α → Verdict} (hf : ∀ v x, (f v x).rule.frame = v.rule.frame)
    (xs : List α) (v : Verdict) : (v.each xs f).rule.frame = v.rule.frame := by
  unfold each
  induction xs generalizing v with
  | nil => rfl
  | cons x xs ih =>
    rw [List.foldl_cons, ih]
    unfold unlessFailed
    cases v.outcome with
    | error e => rfl
    | ok _ => exact hf v x

theorem frame_ofBothSides {f : Side → Rule → Verdict} (hf : ∀ side r, (f side r).rule.frame = r.frame) (r : Rule) :
    (ofBothSides f r).rule.frame = r.frame := by
  unfold ofBothSides
  cases ho : (f .source r).outcome with
  | error e =>
    simp only [ho]
    exact hf .source r
  | ok _ =>
    simp only [ho]
    exact (hf .destination _).trans (hf .source r)

end Verdict

open Verdict

theorem frame_classifiedSide (side : Side) (r : Rule) : (classifiedSide side r).rule.frame = r.frame := by
  unfold classifiedSide
  split
  · rfl
  · refine frame_each (fun v t => ?_) _ _
    unfold classifyToken
    cases classify t with
    | error u =>
      simp only
      split <;> rfl
    | ok e => exact frame_add v side e

theorem frame_classified (r : Rule) : (classified r).rule.frame = r.frame := frame_ofBothSides frame_classifiedSide r

def checkedSide (table : Option Membership) (declared : List String) (side : Side) (r : Rule) : Verdict :=
  ({ rule := r } : Verdict).each (r.slot side).values (checkEndpoint table declared)

theorem frame_checkedSide (table : Option Membership) (declared : List String) (side : Side) (r : Rule) :
    (checkedSide table declared side r).rule.frame = r.frame := by
  refine frame_each (fun v e => ?_) _ _
  unfold checkEndpoint
  repeat' split
  all_goals rfl

theorem frame_checked (table : Option Membership) (declared : List String) (r : Rule) :
    (checked table declared r).rule.frame = r.frame :=
  frame_ofBothSides (frame_checkedSide table declared) r

theorem frame_originated (r : Rule) : (originated r).rule.frame = r.frame := by
  refine (frame_each (fun v e => ?_) _ _).trans (Rule.frame_withSlot r .source ∅)
  unfold originate
  rw [frame_add]
  split <;> rfl

def expandedSide (table : Option Membership) (side : Side) (r : Rule) : Verdict :=
  ({ rule := r.withSlot side ∅ } : Verdict).each (r.slot side).values (expandEndpoint table side)

theorem frame_expandedSide (table : Option Membership) (side : Side) (r : Rule) :
    (expandedSide table side r).rule.frame = r.frame := by
  refine (frame_each (fun v e => ?_) _ _).trans (Rule.frame_withSlot r side ∅)
  unfold expandEndpoint
  cases e.target with
  | block role name address => exact frame_add v side e
  | named space name =>
    cases table with
    | none => rfl
    | some m => exact frame_each (fun v x => frame_add v side x) _ v

theorem frame_expanded (table : Option Membership) (r : Rule) : (expanded table r).rule.frame = r.frame :=
  frame_ofBothSides (frame_expandedSide table) r

end Compiler

end Portcullis
