/-
  Portcullis.Proofs.Drawing — what the finished rules put into the graph.

  Registering touches the nodes only, storing policies touches the policies only, and neither
  looks at the keys that a rule has noted. So the graph of a compilation is told by the list of
  the finished rules: their registration in order, and their edges stored in the order of the
  stages (`scheduled`), which depends on whether the rules are taken one by one.
-/

import Portcullis.Proofs.Sweep

namespace Portcullis

def Rule.bare (r : Rule) : Rule := { r with policyKeys := [] }

namespace Graph

def stored (g : Graph) (es : List Edge) : Graph := es.foldl addPolicy g

theorem stored_append (g : Graph) (es fs : List Edge) : g.stored (es ++ fs) = (g.stored es).stored fs :=
  List.foldl_append

def storedKeys : Graph → List Edge → List String
  | _, [] => []
  | g, e :: es => g.policyKey e :: storedKeys (g.addPolicy e) es

theorem length_storedKeys (g : Graph) (es : List Edge) : (g.storedKeys es).length = es.length := by
  induction es generalizing g with
  | nil => rfl
  | cons e es ih => rw [storedKeys, List.length_cons, List.length_cons, ih]

theorem storedKeys_append (g : Graph) (es fs : List Edge) :
    g.storedKeys (es ++ fs) = g.storedKeys es ++ (g.stored es).storedKeys fs := by
  induction es generalizing g with
  | nil => rfl
  | cons e es ih => rw [List.cons_append, storedKeys, ih]; rfl

/-- Only the policies count. -/
theorem storedKeys_congr {g g' : Graph} (h : g.policies = g'.policies) (es : List Edge) :
    g.storedKeys es = g'.storedKeys es := by
  induction es generalizing g g' with
  | nil => rfl
  | cons e es ih =>
    have hkey : g.policyKey e = g'.policyKey e := by
      unfold policyKey
      rw [h]
    rw [storedKeys, storedKeys, hkey, ih]
    unfold addPolicy
    rw [hkey, h]

def withNodes (g : Graph) (nodes : Table Node) : Graph := { g with nodes }

def withPolicies (g : Graph) (policies : Table Edge) : Graph := { g with policies }

theorem addNode_withPolicies (g : Graph) (p : Table Edge) (e : Endpoint) :
    (g.withPolicies p).addNode e = (g.addNode e).withPolicies p := rfl

theorem addEdge_withPolicies (g : Graph) (p : Table Edge) (s d : String) :
    (g.withPolicies p).addEdge s d = (g.addEdge s d).withPolicies p := by
  unfold addEdge
  simp only [withPolicies]
  cases g.nodes.get? s <;> rfl

theorem link_withPolicies (g : Graph) (p : Table Edge) (s d : Endpoint) :
    (g.withPolicies p).link s d = (g.link s d).withPolicies p := by
  unfold link
  simp only [addNode_withPolicies]
  split
  · rfl
  · rw [addEdge_withPolicies]

theorem stored_withNodes (g : Graph) (n : Table Node) (es : List Edge) :
    (g.withNodes n).stored es = (g.stored es).withNodes n :=
  List.foldl_hom (fun g : Graph => g.withNodes n) fun _ _ => rfl

theorem nodes_stored (g : Graph) (es : List Edge) : (g.stored es).nodes = g.nodes := by
  have h := congrArg Graph.nodes (stored_withNodes g g.nodes es)
  exact h

theorem stored_eq (g : Graph) (es : List Edge) : g.stored es = g.withPolicies (g.stored es).policies := by
  have h := nodes_stored g es
  generalize g.stored es = x at h ⊢
  cases x
  cases h
  rfl

end Graph

namespace Compiler

open Portcullis.Graph

theorem registered_withPolicies (g : Graph) (p : Table Edge) (r : Rule) :
    registered (g.withPolicies p) r = (registered g r).withPolicies p := by
  unfold registered
  apply List.foldl_hom (fun g : Graph => g.withPolicies p)
  intro g s
  rw [addNode_withPolicies]
  exact List.foldl_hom (fun g : Graph => g.withPolicies p) fun g e => link_withPolicies g p s e

theorem foldl_registered_withPolicies (g : Graph) (p : Table Edge) (rs : List Rule) :
    rs.foldl registered (g.withPolicies p) = (rs.foldl registered g).withPolicies p :=
  List.foldl_hom (fun g : Graph => g.withPolicies p) fun g r => registered_withPolicies g p r

theorem policies_foldl_registered (g : Graph) (rs : List Rule) : (rs.foldl registered g).policies = g.policies := by
  have h := congrArg Graph.policies (foldl_registered_withPolicies g g.policies rs)
  exact h

/-! ## The drawings of the stages -/

def register (g : Graph) (r : Rule) : Graph × Rule := (registered g r, r)

def drawGroups (g : Graph) (r : Rule) : Graph × Rule := addPolicies g r (groupEdges r)

def drawResources (g : Graph) (r : Rule) : Graph × Rule := addPolicies g r (resourceEdges r)

theorem addPolicies_spec (g : Graph) (r : Rule) (es : List Edge) :
    (addPolicies g r es).1 = g.stored es ∧ (addPolicies g r es).2.bare = r.bare := by
  induction es generalizing g r with
  | nil => exact ⟨rfl, rfl⟩
  | cons e es ih => exact ih (g.addPolicy e) { r with policyKeys := r.policyKeys ++ [g.policyKey e] }

/-- A rule notes the keys of its policies. -/
theorem policyKeys_addPolicies (g : Graph) (r : Rule) (es : List Edge) :
    (addPolicies g r es).2.policyKeys = r.policyKeys ++ g.storedKeys es := by
  induction es generalizing g r with
  | nil => simp [addPolicies, storedKeys]
  | cons e es ih =>
    have h := ih (g.addPolicy e) { r with policyKeys := r.policyKeys ++ [g.policyKey e] }
    rw [List.append_assoc] at h
    exact h

theorem groupEdges_bare {r r' : Rule} (h : r.bare = r'.bare) : groupEdges r = groupEdges r' := by
  show groupEdges r.bare = groupEdges r'.bare
  rw [h]

theorem resourceEdges_bare {r r' : Rule} (h : r.bare = r'.bare) : resourceEdges r = resourceEdges r' := by
  show resourceEdges r.bare = resourceEdges r'.bare
  rw [h]

/-- The edges of a list of rules in the order in which they are stored: those of a rule
    together, or first all edges to groups. -/
def scheduled (stagewise : Bool) (rs : List Rule) : List Edge :=
  if stagewise then rs.flatMap groupEdges ++ rs.flatMap resourceEdges
  else rs.flatMap fun r => groupEdges r ++ resourceEdges r

theorem scheduled_congr {rs rs' : List Rule} (h : rs.map Rule.bare = rs'.map Rule.bare) (stagewise : Bool) :
    scheduled stagewise rs = scheduled stagewise rs' := by
  have hbare : ∀ {f : Rule → List Edge}, (∀ r, f r.bare = f r) → rs.flatMap f = rs'.flatMap f := by
    intro f hf
    have he : ∀ l : List Rule, l.flatMap f = (l.map Rule.bare).flatMap f := by
      intro l
      rw [List.flatMap_map]
      simp only [hf]
    rw [he rs, he rs', h]
  have hgroups : ∀ r : Rule, groupEdges r.bare = groupEdges r := fun r => rfl
  have hresources : ∀ r : Rule, resourceEdges r.bare = resourceEdges r := fun r => rfl
  unfold scheduled
  rw [hbare hgroups, hbare hresources]
  rw [hbare fun r => by rw [hgroups r, hresources r]]

def laidOut (stagewise : Bool) (g : Graph) (rs : List Rule) : Graph :=
  ((rs.foldl registered g).withPolicies g.policies).stored (scheduled stagewise rs)

theorem nodes_laidOut (stagewise : Bool) (g : Graph) (rs : List Rule) :
    (laidOut stagewise g rs).nodes = (rs.foldl registered g).nodes := by
  unfold laidOut
  rw [nodes_stored]
  rfl

theorem drawn_register (g : Graph) (ps : List Placed) :
    drawn register g ps = (ps.map Prod.snd).foldl registered g := by
  unfold drawn
  rw [List.foldl_map]
  rfl

theorem drawn_groups (g : Graph) (ps : List Placed) :
    drawn drawGroups g ps = g.stored ((ps.map Prod.snd).flatMap groupEdges) := by
  induction ps generalizing g with
  | nil => rfl
  | cons p ps ih =>
    rw [List.map_cons, List.flatMap_cons, stored_append, ← ih]
    exact congrArg (drawn drawGroups · ps) (addPolicies_spec g p.2 (groupEdges p.2)).1

theorem drawn_resources (g : Graph) (ps : List Placed) :
    drawn drawResources g ps = g.stored ((ps.map Prod.snd).flatMap resourceEdges) := by
  induction ps generalizing g with
  | nil => rfl
  | cons p ps ih =>
    rw [List.map_cons, List.flatMap_cons, stored_append, ← ih]
    exact congrArg (drawn drawResources · ps) (addPolicies_spec g p.2 (resourceEdges p.2)).1

/-- One stage after another lays the graph out. -/
theorem laidOut_stagewise (g : Graph) (ps : List Placed) :
    drawn drawResources (drawn drawGroups (drawn register g ps) ps) ps = laidOut true g (ps.map Prod.snd) := by
  rw [drawn_register, drawn_groups, drawn_resources, ← stored_append]
  unfold laidOut scheduled
  rw [if_pos rfl, ← policies_foldl_registered g (ps.map Prod.snd)]
  rfl

/-- The edges of an earlier rule may be stored before the later rules are registered. -/
theorem laidOut_stored (g : Graph) (r : Rule) (es : List Edge) (rs : List Rule) (stagewise : Bool) :
    laidOut stagewise ((registered g r).stored es) rs =
      (((r :: rs).foldl registered g).withPolicies g.policies).stored (es ++ scheduled stagewise rs) := by
  have hpolicies : (registered g r).policies = g.policies := policies_foldl_registered g [r]
  unfold laidOut
  rw [stored_append]
  congr 1
  rw [stored_eq, foldl_registered_withPolicies, List.foldl_cons]
  generalize rs.foldl registered (registered g r) = x
  have hx : x.withPolicies g.policies = (registered g r).withNodes x.nodes := by
    rw [← hpolicies]
    rfl
  rw [hx, stored_withNodes]
  rfl

/-- All stages draw one rule: its edges to groups, then those to resources. -/
theorem drawn_rule (g : Graph) (r : Rule) :
    (drawnThen register (drawnThen drawGroups drawResources) g r).1 =
        (registered g r).stored (groupEdges r ++ resourceEdges r) ∧
      (drawnThen register (drawnThen drawGroups drawResources) g r).2.policyKeys =
        r.policyKeys ++ (registered g r).storedKeys (groupEdges r ++ resourceEdges r) := by
  have h := addPolicies_spec (registered g r) r (groupEdges r)
  have hkeys := policyKeys_addPolicies (registered g r) r (groupEdges r)
  simp only [drawnThen, register, drawGroups, drawResources, resourceEdges_bare h.2]
  rw [(addPolicies_spec _ _ _).1, policyKeys_addPolicies, hkeys, h.1]
  exact ⟨(stored_append _ _ _).symm, by rw [storedKeys_append, List.append_assoc]⟩

theorem bare_drawn_rule (g : Graph) (r : Rule) :
    (drawnThen register (drawnThen drawGroups drawResources) g r).2.bare = r.bare :=
  (addPolicies_spec _ _ _).2.trans (addPolicies_spec _ _ _).2

/-- One rule after another lays the graph out as well. -/
theorem laidOut_rulewise (g : Graph) (ps : List Placed) :
    drawn (drawnThen register (drawnThen drawGroups drawResources)) g ps = laidOut false g (ps.map Prod.snd) := by
  induction ps generalizing g with
  | nil => rfl
  | cons p ps ih =>
    obtain ⟨id, r⟩ := p
    show drawn _ (drawnThen register (drawnThen drawGroups drawResources) g r).1 ps = _
    rw [(drawn_rule g r).1, ih, laidOut_stored]
    rfl

/-- Recording membership stores no policy. -/
theorem policies_foldMembership (m : Membership) : (Compilation.foldMembership {} m).policies = ∅ := by
  have h : ∀ (groups : List Group) (g : Graph) (p : Table Edge),
      groups.foldl (fun g group => group.members.foldl (fun g e => g.link e group.self) (g.addNode group.self))
        (g.withPolicies p) =
      (groups.foldl (fun g group => group.members.foldl (fun g e => g.link e group.self) (g.addNode group.self))
        g).withPolicies p := fun groups g p =>
    List.foldl_hom (fun g : Graph => g.withPolicies p) fun g group => by
      rw [Graph.addNode_withPolicies]
      exact List.foldl_hom (fun g : Graph => g.withPolicies p) fun g e => Graph.link_withPolicies g p e group.self
  have := congrArg Graph.policies (h m.groups.values {} ∅)
  exact this

/-- The policies of a graph that had none are the edges that were stored. -/
theorem policies_laidOut {g : Graph} (hg : g.policies = ∅) (stagewise : Bool) (rs : List Rule) :
    (laidOut stagewise g rs).policies = (Graph.stored {} (scheduled stagewise rs)).policies := by
  unfold laidOut
  rw [hg]
  have h := congrArg Graph.policies (stored_withNodes {} (rs.foldl registered g).nodes (scheduled stagewise rs))
  exact h

end Compiler

end Portcullis
