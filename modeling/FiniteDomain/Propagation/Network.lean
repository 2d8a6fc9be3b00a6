import FiniteDomain.Propagation.Agenda

/-!
# Networks

A network is a model together with its posted propagators. Changes of domains wake the propagators that
watch for them, and these run, the cheapest first, until none is waiting or one ends in a contradiction.
A propagator is never woken by its own changes.
-/

namespace FiniteDomain

/-- The state of a posted propagator. -/
inductive PostState where
  | idle
  | scheduled
  | failed
  | removed
deriving Repr, DecidableEq

namespace PostState

def text : PostState → String
  | idle => "Idle"
  | scheduled => "Scheduled"
  | failed => "Failed"
  | removed => "Removed"

end PostState

/-- A posted propagator and what is kept about it. -/
structure Post where
  propagator : Propagator
  /-- The cell that says whether it is still to be woken. -/
  active : Nat
  state : PostState := .idle
  /-- A full pass is due. -/
  full : Bool := false
  /-- For each place of the scope the conditions met since the last run. -/
  pending : Array EventMask
  executions : Nat := 0

namespace Post

/-- Nothing is pending. -/
def clearPending (p : Post) : Post := { p with pending := p.pending.map fun _ => .void }

/-- The places at which something is pending, in increasing order. -/
def pendingList (p : Post) : List (Nat × EventMask) :=
  (p.pending.toList.zipIdx.map fun e => (e.2, e.1)).filter fun e => !e.2.isEmpty

end Post

/-- One place of a scope at which a variable stands, and the conditions waited for there. -/
structure Watcher where
  id : PropId
  place : Nat
  condition : EventMask
deriving Repr, DecidableEq

structure Network where
  model : Model
  posts : Array Post := #[]
  /-- For each variable those who watch it, in the order of posting. -/
  watchers : Array (Array Watcher) := #[]
  agenda : Agenda := {}
  /-- Propagation was begun at least once. -/
  started : Bool := false
  /-- The last propagation ended in a contradiction. -/
  failed : Bool := false
  last : Option Contradiction := none
  executions : Nat := 0

namespace Network

/-- A step on the model alone. -/
@[inline]
def onModel {α : Type} (n : Network) (f : Model → Activity (α × Model)) : Activity (α × Network) :=
  match n with
  | ⟨model, posts, watchers, agenda, started, failed, last, executions⟩ => do
    let (a, model) ← f model
    return (a, ⟨model, posts, watchers, agenda, started, failed, last, executions⟩)

/-- A step on the model alone that may end in a fault. -/
@[inline]
def mapModel (n : Network) (f : Model → Except Fault Model) : Except Fault Network :=
  match n with
  | ⟨model, posts, watchers, agenda, started, failed, last, executions⟩ => do
    return ⟨← f model, posts, watchers, agenda, started, failed, last, executions⟩

/-! ## Looking -/

/-- A posted propagator by its number, also after its removal. -/
def postOf (n : Network) (id : PropId) : Except Fault Post :=
  match n.posts[id.index]? with
  | some p => .ok p
  | none => .error .missing

/-- The posted propagators that were not removed, in the order of posting. -/
def live (n : Network) : Array (PropId × Post) :=
  (n.posts.zipIdx.filter fun e => e.1.state ≠ .removed).map fun e => (⟨e.2⟩, e.1)

def propagatorCount (n : Network) : Nat := n.live.size

/-- The propagator may be woken. -/
def isActive (n : Network) (p : Post) : Bool := p.state ≠ .removed && n.model.store.flag p.active

/-- The first active propagator of a list that no choice of the values left satisfies. The list is numbered
from `next` on. -/
def firstViolated (n : Network) (next : Nat) : List Post → Except Fault (Option (PropId × Post))
  | [] => return none
  | p :: rest => do
    if n.isActive p then
      if (← p.propagator.entailed n.model) = .never then return some (⟨next⟩, p)
    n.firstViolated (next + 1) rest

/-- The first active propagator that no choice of the values left satisfies. -/
def findViolated (n : Network) : Except Fault (Option (PropId × Post)) := n.firstViolated 0 n.posts.toList

/-! ## Scheduling -/

/-- Puts an idle propagator on the agenda. -/
def wake (n : Network) (id : PropId) (p : Post) : Network :=
  if p.state = .idle then
    { n with
      posts := n.posts.setIfInBounds id.index { p with state := .scheduled }
      agenda := n.agenda.enqueue p.propagator.priority id }
  else { n with posts := n.posts.setIfInBounds id.index p }

/-- A full pass of the propagator is due. -/
def scheduleFull (n : Network) (id : PropId) : Network :=
  match n.posts[id.index]? with
  | none => n
  | some p => if p.state = .removed then n else n.wake id { p with full := true }

/-- A full pass of every propagator is due. -/
def scheduleAll (n : Network) : Network :=
  (List.range n.posts.size).foldl (fun n i => n.scheduleFull ⟨i⟩) n

/-- Begins propagation if that was not done before. -/
def start (n : Network) : Network := if n.started then n else { n with started := true }.scheduleAll

/-- Notes a change with one who watches the variable, unless the change is its own, is none it waits for, or
it is no longer active. -/
def notify (n : Network) (e : Event) (w : Watcher) : Network :=
  if e.cause = .propagator w.id || !e.kind.mask.intersects w.condition then n
  else
    match n.posts[w.id.index]? with
    | none => n
    | some p =>
      if n.model.store.flag p.active then
        n.wake w.id { p with pending := p.pending.modify w.place fun mask => mask ||| e.kind.mask }
      else n

/-- Notes a change with all who watch the variable. -/
def distribute (n : Network) (e : Event) : Network :=
  match n.watchers[e.var.index]? with
  | some ws => ws.foldl (fun n w => n.notify e w) n
  | none => n

/-- Looks at the changes of the model, oldest first. -/
def absorb (n : Network) : Network :=
  let events := n.model.events
  events.foldl distribute { n with model := n.model.clearEvents }

/-! ## Posting -/

/-- Enters a propagator with the variables of its scope. -/
def watch (watchers : Array (Array Watcher)) (p : Propagator) (id : PropId) : Array (Array Watcher) :=
  p.scope.zipIdx.foldl
    (fun watchers e => watchers.modify e.1.index fun ws => ws.push ⟨id, e.2, p.condition e.2⟩) watchers

/-- Posts a propagator. Once propagation was begun, a full pass is due at once. -/
def post (n : Network) (p : Propagator) : Activity (PropId × Network) := do
  match p.scope.find? fun x => !n.model.owns x with
  | some x => throw (Fault.foreignVariable p.name x n.model.name)
  | none =>
    let id : PropId := ⟨n.posts.size⟩
    Activity.report (.posted p.name id p.scope.size)
    let (active, store) := n.model.store.make (.bool true)
    let grown := n.watchers ++ Array.replicate (n.model.varCount - n.watchers.size) #[]
    let n := { n with
      model := { n.model with store }
      posts := n.posts.push { propagator := p, active, pending := Array.replicate p.scope.size .void }
      watchers := watch grown p id }
    return (id, if n.started then n.scheduleFull id else n)

/-- Removes a posted propagator. It watches nothing any more and owes nothing. -/
def unpost (n : Network) (id : PropId) : Activity Network := do
  match n.posts[id.index]? with
  | none => throw (Fault.unknownPropagator id)
  | some p =>
    if p.state = .removed then throw (Fault.unknownPropagator id)
    Activity.report (.unposted p.propagator.name id)
    return { n with
      posts := n.posts.setIfInBounds id.index { p.clearPending with state := .removed, full := false }
      watchers := n.watchers.map fun ws => ws.filter fun w => w.id ≠ id
      agenda := n.agenda.erase id }

/-! ## Running -/

/-- The passes of an execution: a full one, or one for each place that woke the propagator. -/
def passes (p : Propagator) (full : Bool) (pending : List (Nat × EventMask)) : Filter Unit :=
  if full || !p.reacts then p.run else pending.forM fun e => p.runOn e.1 e.2

/-- Runs the passes of a propagator on a model. If it asked for it and did not fail, it is not woken again. -/
def runPasses (p : Propagator) (active : Nat) (id : PropId) (full : Bool) (pending : List (Nat × EventMask))
    (model : Model) : Activity (Except Contradiction Unit × Model) := do
  Activity.report (.executing p.name id full)
  let (outcome, scene) ← (passes p full pending).run { self := id, model }
  match outcome, scene with
  | .ok (), ⟨_, model, passive⟩ =>
    if passive then
      Activity.report (.passivated p.name id)
      return (.ok (), model.setCell active (.bool false))
    else return (.ok (), model)
  | .error c, ⟨_, model, _⟩ =>
    Activity.report (.failed p.name id c)
    return (.error c, model)

/-- Runs a scheduled propagator. It owes nothing when it starts. -/
def execute (n : Network) (id : PropId) : Activity (Except Contradiction Unit × Network) := do
  match n.posts[id.index]? with
  | none => throw Fault.missing
  | some p =>
    let (outcome, n) ← n.onModel (runPasses p.propagator p.active id p.full p.pendingList)
    let done := { p.clearPending with state := .idle, full := false, executions := p.executions + 1 }
    match outcome with
    | .ok () =>
      return (.ok (), { n with
        posts := n.posts.setIfInBounds id.index done
        executions := n.executions + 1 })
    | .error c =>
      return (.error c, { n with
        posts := n.posts.setIfInBounds id.index { done with state := .failed }
        executions := n.executions + 1
        failed := true
        last := some c })

/-- Runs waiting propagators until none waits or a contradiction arises, at most so many. -/
def drain (n : Network) : Nat → Activity (Except Contradiction Unit × Network)
  | 0 => if n.agenda.isEmpty then return (.ok (), n) else throw Fault.outOfFuel
  | fuel + 1 => do
    match n.agenda.next? with
    | none => return (.ok (), n)
    | some (id, agenda) =>
      let (outcome, n) ← { n with agenda }.execute id
      match outcome with
      | .error c => return (.error c, n)
      | .ok () => n.absorb.drain fuel

/-- The number of values that an interval around the domain of a variable has. -/
def width (m : Model) (v : Variable) : Nat := (v.domain.ub m.store - v.domain.lb m.store + 1).toNat

/-- No propagation runs more propagators than this: each is waiting now, or will be woken by a change of a
variable it watches, and each change takes a value away. -/
def budget (n : Network) : Nat :=
  n.model.vars.toList.zipIdx.foldr (fun e sum => width n.model e.1 * (n.watchers[e.2]?.getD #[]).size + sum)
    n.agenda.entries.length

/-- Runs propagators until nothing more can be concluded or a contradiction arises. -/
def propagate (n : Network) : Activity (Except Contradiction Unit × Network) := do
  if n.failed then throw Fault.failedNetwork
  let n := n.start.absorb
  n.drain n.budget

/-- Forgets what was pending and the changes of the model. Full passes that are due stay due. -/
def flush (n : Network) : Network :=
  let posts := n.posts.map fun p =>
    if p.state = .removed then p
    else { p.clearPending with state := if p.full then .scheduled else .idle }
  let agenda := posts.zipIdx.foldl
    (fun (a : Agenda) e => if e.1.state = .scheduled then a.enqueue e.1.propagator.priority ⟨e.2⟩ else a) {}
  { n with posts, agenda, failed := false, model := n.model.clearEvents }

/-- Takes out the last contradiction. -/
def takeLast (n : Network) : Option Contradiction × Network := (n.last, { n with last := none })

/-- Narrows the domain of a variable. -/
def narrow (n : Network) (x : VarId) (μ : Mutation) (cause : Cause) :
    Activity (Except Contradiction Bool × Network) :=
  n.onModel fun model => model.narrow x μ cause

end Network

end FiniteDomain
