import FiniteDomain.Notice

/-!
# Trace lines

A notice as one line of text: its level, and then keys with their values. A trace shows the lines up to a
level.
-/

namespace FiniteDomain

/-- The levels of trace lines. -/
inductive Level where
  | error
  | warn
  | info
  | debug
  | trace
deriving Repr, DecidableEq

namespace Level

/-- The place among the levels, the coarsest being zero. -/
def rank : Level → Nat
  | error => 0
  | warn => 1
  | info => 2
  | debug => 3
  | trace => 4

def text : Level → String
  | error => "ERROR"
  | warn => "WARN"
  | info => "INFO"
  | debug => "DEBUG"
  | trace => "TRACE"

/-- A trace up to this level shows lines of the other. -/
def shows (a b : Level) : Bool := b.rank ≤ a.rank

end Level

/-- A line before its level is written in front. -/
structure TraceLine where
  level : Level
  fields : String
deriving Repr, DecidableEq

namespace TraceLine

def text (l : TraceLine) : String := s!"{l.level.text} {l.fields}"

/-- A value that may be absent. -/
def optionText : Option Int → String
  | some v => s!"Some({v})"
  | none => "None"

/-- A reason that may be absent. -/
def reasonText : Option StopReason → String
  | some r => s!"Some({r.text})"
  | none => "None"

end TraceLine

namespace Notice

/-- The line of a notice. Calls of observers and entries of filters have none. -/
def traceLine? : Notice → Option TraceLine
  | posted name id arity => some ⟨.trace, s!"message=post propagator={name} id={id.text} arity={arity}"⟩
  | unposted name id => some ⟨.trace, s!"message=unpost propagator={name} id={id.text}"⟩
  | executing name id full => some ⟨.trace, s!"message=propagate propagator={name} id={id.text} full={full}"⟩
  | passivated name id => some ⟨.trace, s!"message=passivate propagator={name} id={id.text}"⟩
  | failed name id c => some ⟨.trace, s!"message=fail propagator={name} id={id.text} contradiction={c.text}"⟩
  | modified name kind cause =>
    some ⟨.trace, s!"message=modification var={name} event={kind.text} cause={cause.text}"⟩
  | wipedOut name cause => some ⟨.trace, s!"message=wipe-out var={name} cause={cause.text}"⟩
  | searchStarted model vars propagators optimizing =>
    some ⟨.info, s!"event=solve_start model={model} vars={vars} propagators={propagators} " ++
      s!"optimizing={optimizing}"⟩
  | searchEnded status stopped m =>
    some ⟨.info, s!"event=solve_end status={status.text} stopped={TraceLine.reasonText stopped} " ++
      s!"solutions={m.solutions} nodes={m.nodes} fails={m.fails} restarts={m.restarts}"⟩
  | searchRestarted restarts nogoods nodes best =>
    some ⟨.info, s!"event=restart restarts={restarts} nogoods={nogoods} nodes={nodes} " ++
      s!"best={TraceLine.optionText best}"⟩
  | limitReached reason nodes => some ⟨.debug, s!"event=limit reason={reason.text} nodes={nodes}"⟩
  | solutionFound index objective depth =>
    some ⟨.debug, s!"event=solution index={index} objective={TraceLine.optionText objective} depth={depth}"⟩
  | branchFailed c depth => some ⟨.trace, s!"event=fail reason={c.text} depth={depth}"⟩
  | filterLogged _ => none
  | callback _ _ => none

end Notice

namespace Callback

/-- The line of a call of an observer that traces, which has heard of so many solutions before. -/
def traceLine? (c : Callback) (m : Model) (solutions : Nat) : Option TraceLine :=
  match c with
  | rootPropagated => some ⟨.debug, s!"event=root_propagated model={m.name} vars={m.varCount}"⟩
  | nodeOpened _ => none
  | down d => some ⟨.debug, s!"event=down decision={d.text}"⟩
  | up d => some ⟨.debug, s!"event=up decision={d.text}"⟩
  | solution s =>
    some ⟨.debug, s!"event=solution index={solutions + 1} objective={TraceLine.optionText s.objective}"⟩
  | contradiction c => some ⟨.debug, s!"event=contradiction reason={c.text}"⟩
  | restarted restarts => some ⟨.debug, s!"event=restart restarts={restarts}"⟩
  | closed measures status =>
    some ⟨.debug, s!"event=close status={status.text} measures={measures.countsText}{measures.bestText}"⟩

end Callback

end FiniteDomain
