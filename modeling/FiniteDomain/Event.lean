/-!
# Events on domains

What a narrowing of a domain reports: which variable changed, what kind of change it was, and who caused it.
A kind is delivered as a mask of conditions; a mask wakes whoever waits for one of its bits.
-/

namespace FiniteDomain

/-- A variable, by its place in the order of creation. -/
structure VarId where
  index : Nat
deriving Repr, DecidableEq

namespace VarId

/-- `v` and the index. -/
def text (x : VarId) : String := s!"v{x.index}"

end VarId

/-- A posted propagator, by its place in the order of posting. -/
structure PropId where
  index : Nat
deriving Repr, DecidableEq

namespace PropId

/-- `p` and the index. -/
def text (p : PropId) : String := s!"p{p.index}"

end PropId

/-- A kind of change, from the one that wakes most to the one that wakes least. -/
inductive EventKind where
  /-- One value is left. -/
  | instantiate
  /-- The lower bound rose. -/
  | incLow
  /-- The upper bound fell. -/
  | decUpp
  /-- Both bounds moved. -/
  | bounds
  /-- A value between the bounds went. -/
  | remove
deriving Repr, DecidableEq

/-- A set of conditions, by its four bits. -/
structure EventMask where
  bits : Nat
deriving Repr, DecidableEq

namespace EventMask

/-- No condition. -/
def void : EventMask := ⟨0⟩

/-- One value is left. -/
def instantiation : EventMask := ⟨1⟩

/-- The lower bound rose. -/
def incLow : EventMask := ⟨2⟩

/-- The upper bound fell. -/
def decUpp : EventMask := ⟨4⟩

/-- A value went, wherever it stood. -/
def remove : EventMask := ⟨8⟩

/-- A bound moved or one value is left. -/
def boundAndInst : EventMask := ⟨7⟩

/-- Every condition. -/
def all : EventMask := ⟨15⟩

def union (a b : EventMask) : EventMask := ⟨a.bits ||| b.bits⟩

instance : OrOp EventMask := ⟨union⟩

def isEmpty (a : EventMask) : Bool := a.bits == 0

/-- The two masks share a condition. -/
def intersects (a b : EventMask) : Bool := a.bits &&& b.bits != 0

/-- Every condition of `b` is one of `a`. -/
def contains (a b : EventMask) : Bool := a.bits &&& b.bits == b.bits

/-- The names of the conditions with bars between them. -/
def text (a : EventMask) : String :=
  let named := [(instantiation, "INST"), (incLow, "INCLOW"), (decUpp, "DECUPP"), (remove, "REMOVE")]
  match named.filter fun p => a.contains p.1 with
  | [] => "VOID"
  | ps => "|".intercalate (ps.map Prod.snd)

end EventMask

namespace EventKind

/-- The conditions that a change of this kind meets. A moved bound also removes a value, and an
instantiation meets all. -/
def mask : EventKind → EventMask
  | instantiate => .all
  | incLow => .incLow ||| .remove
  | decUpp => .decUpp ||| .remove
  | bounds => .incLow ||| .decUpp ||| .remove
  | remove => .remove

/-- The kind of two changes taken as one. -/
def merge : EventKind → EventKind → EventKind
  | instantiate, _ => instantiate
  | _, instantiate => instantiate
  | incLow, incLow => incLow
  | decUpp, decUpp => decUpp
  | remove, e => e
  | e, remove => e
  | _, _ => bounds

def text : EventKind → String
  | instantiate => "Instantiate"
  | incLow => "IncLow"
  | decUpp => "DecUpp"
  | bounds => "Bounds"
  | remove => "Remove"

end EventKind

/-- Who narrowed a domain. -/
inductive Cause where
  | unknown
  | decision
  | objective
  | restart
  | propagator (id : PropId)
deriving Repr, DecidableEq

namespace Cause

def text : Cause → String
  | unknown => "Null"
  | decision => "Decision"
  | objective => "Objective"
  | restart => "Restart"
  | propagator p => s!"Propagator(PropagatorId({p.index}))"

end Cause

/-- One change of one domain. -/
structure Event where
  var : VarId
  kind : EventKind
  cause : Cause
deriving Repr, DecidableEq

end FiniteDomain
