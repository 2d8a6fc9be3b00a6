import FiniteDomain.Event

/-!
# Decisions

A decision splits a domain in two: a first alternative and its refutation. It remembers how many of the two
were tried.
-/

namespace FiniteDomain

/-- How a decision splits the domain of its variable at its value. -/
inductive Split where
  /-- Take the value, then remove it. -/
  | assign
  /-- Remove the value, then take it. -/
  | remove
  /-- Keep what is at most the value, then what is above. -/
  | lower
  /-- Keep what is at least the value, then what is below. -/
  | upper
deriving Repr, DecidableEq

namespace Split

/-- The sign of the first alternative. -/
def firstSign : Split → String
  | assign => "="
  | remove => "!="
  | lower => "<="
  | upper => ">="

/-- The sign of the refutation. -/
def secondSign : Split → String
  | assign => "!="
  | remove => "="
  | lower => ">"
  | upper => "<"

def text : Split → String
  | assign => "Assign"
  | remove => "Remove"
  | lower => "SplitLower"
  | upper => "SplitUpper"

end Split

/-- A split of one domain and the number of its alternatives that were tried. -/
structure Decision where
  var : VarId
  value : Int
  split : Split
  tried : Nat := 0
deriving Repr, DecidableEq

namespace Decision

/-- A decision has a first alternative and a refutation. -/
def arity : Nat := 2

def hasNext (d : Decision) : Bool := d.tried < arity

def triesLeft (d : Decision) : Nat := arity - d.tried

/-- The first alternative is the one being tried. -/
def onFirst (d : Decision) : Bool := d.tried == 1

/-- The alternative being tried, or the first one before any was. -/
def text (d : Decision) : String :=
  let sign := if d.tried ≤ 1 then d.split.firstSign else d.split.secondSign
  s!"{d.var.text} {sign} {d.value}"

end Decision

end FiniteDomain
