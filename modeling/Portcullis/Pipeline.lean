/-
  Portcullis.Pipeline — chains of stages that pull rules from one another.

  A stage hands out the items of its queue. When the queue is empty it pulls one item from
  the stage before it, works on it and queues it or drops it, until the queue has an item or
  the stage before has none left. A source queues what the context holds, once; an observer
  pulls everything at once, reports it and then hands it out.

  The chain is a list with the last stage first, so the tail of a stage is what it pulls
  from. Work acts on a context, may fail, and leaves the context as it is at that moment.
  The number of rounds a stage can need is bounded by what is waiting in the chain
  (`waiting`), and that number is the fuel of each loop.
-/

namespace Portcullis.Pipeline

/-- What a stage does with items `ρ` in a context `σ`, with failures `ε`. -/
inductive Task (ρ σ ε : Type) where
  /-- Queues the items that the context holds; pulls nothing. -/
  | source (items : σ → List ρ)
  /-- Works on each item and says whether it goes on. -/
  | filter (work : ρ → σ → Except ε Bool × σ)
  /-- Reports all items together with the name of the stage before. -/
  | observer (report : String → List ρ → σ → Except ε Unit × σ)
  /-- Fails before it pulls anything. -/
  | broken (failure : ε)

/-- A stage of kind `κ`: the items that wait in it, and whether a source or an observer has
    had its turn. -/
structure Stage (κ ρ : Type) where
  kind : κ
  queue : List ρ := []
  spent : Bool := false
  deriving Repr

/-- How the kinds of stages behave, what they are called, and the failure of pulling from a
    stage that is not there. -/
structure Behaviour (κ ρ σ ε : Type) where
  task : κ → Task ρ σ ε
  name : κ → String
  noPredecessor : ε

/-- The outcome of a move, with the chain and the context after it. -/
structure Moved (κ ρ σ ε α : Type) where
  outcome : Except ε α
  chain : List (Stage κ ρ)
  context : σ

variable {κ ρ σ ε : Type}

/-- Something that can be pulled from: one item, or none when it is exhausted. -/
abbrev Puller (κ ρ σ ε : Type) := List (Stage κ ρ) → σ → Moved κ ρ σ ε (Option ρ)

/-- How many items wait in a chain. -/
def waiting (b : Behaviour κ ρ σ ε) (s : σ) : List (Stage κ ρ) → Nat
  | [] => 0
  | st :: up =>
    let unseen := match b.task st.kind with
      | .source items => if st.spent then 0 else (items s).length
      | _ => 0
    st.queue.length + unseen + waiting b s up

/-- Everything that can still be pulled, behind what is queued already; when pulling fails,
    what came before the failure. -/
def pullAll (pull : Puller κ ρ σ ε) :
    (fuel : Nat) → (queue : List ρ) → List (Stage κ ρ) → σ → List ρ × Moved κ ρ σ ε Unit
  | 0, queue, up, s => (queue, ⟨.ok (), up, s⟩)
  | n + 1, queue, up, s =>
    let m := pull up s
    match m.outcome with
    | .error e => (queue, ⟨.error e, m.chain, m.context⟩)
    | .ok none => (queue, ⟨.ok (), m.chain, m.context⟩)
    | .ok (some r) => pullAll pull n (queue ++ [r]) m.chain m.context

/-- One round of a stage; the outcome says whether another round may give more. -/
def round (b : Behaviour κ ρ σ ε) (pull : Puller κ ρ σ ε) (st : Stage κ ρ) (up : List (Stage κ ρ)) (s : σ) :
    Moved κ ρ σ ε Bool :=
  match b.task st.kind with
  | .source items =>
    if st.spent then ⟨.ok false, st :: up, s⟩
    else
      let queue := st.queue ++ items s
      ⟨.ok (!queue.isEmpty), { st with queue, spent := true } :: up, s⟩
  | .filter work =>
    let m := pull up s
    match m.outcome with
    | .error e => ⟨.error e, st :: m.chain, m.context⟩
    | .ok none => ⟨.ok false, st :: m.chain, m.context⟩
    | .ok (some r) =>
      let (outcome, s) := work r m.context
      match outcome with
      | .error e => ⟨.error e, st :: m.chain, s⟩
      | .ok keep => ⟨.ok true, { st with queue := if keep then st.queue ++ [r] else st.queue } :: m.chain, s⟩
  | .observer report =>
    if st.spent then ⟨.ok false, st :: up, s⟩
    else
      let (queue, m) := pullAll pull (waiting b s up + 1) st.queue up s
      let chain := { st with queue, spent := true } :: m.chain
      match m.outcome, m.chain with
      | .error e, _ => ⟨.error e, chain, m.context⟩
      | .ok _, before :: _ =>
        if queue.isEmpty then ⟨.ok false, chain, m.context⟩
        else
          let (outcome, s) := report (b.name before.kind) queue m.context
          ⟨outcome.map fun _ => true, chain, s⟩
      | .ok _, [] => ⟨.ok false, chain, m.context⟩
  | .broken e => ⟨.error e, st :: up, s⟩

/-- Rounds of a stage until it has an item to hand out or is exhausted. -/
def rounds (b : Behaviour κ ρ σ ε) (pull : Puller κ ρ σ ε) :
    (fuel : Nat) → Stage κ ρ → List (Stage κ ρ) → σ → Moved κ ρ σ ε (Option ρ)
  | 0, st, up, s => ⟨.ok none, st :: up, s⟩
  | n + 1, st, up, s =>
    match st.queue with
    | r :: rest => ⟨.ok (some r), { st with queue := rest } :: up, s⟩
    | [] =>
      let m := round b pull st up s
      match m.outcome, m.chain with
      | .error e, chain => ⟨.error e, chain, m.context⟩
      | .ok true, st :: up => rounds b pull n st up m.context
      | .ok _, chain => ⟨.ok none, chain, m.context⟩

/-- Pulls one item from the last stage of a chain of at most `n` stages. -/
def pull (b : Behaviour κ ρ σ ε) : (n : Nat) → Puller κ ρ σ ε
  | 0, chain, s => ⟨.error b.noPredecessor, chain, s⟩
  | _ + 1, [], s => ⟨.error b.noPredecessor, [], s⟩
  | n + 1, st :: up, s => rounds b (pull b n) (waiting b s (st :: up) + 2) st up s

/-- Pulls from a chain until it is exhausted: the items in the order in which they came. -/
def drain (b : Behaviour κ ρ σ ε) (chain : List (Stage κ ρ)) (s : σ) : List ρ × Moved κ ρ σ ε Unit :=
  pullAll (pull b chain.length) (waiting b s chain + 1) [] chain s

end Portcullis.Pipeline
