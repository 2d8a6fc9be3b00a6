import FiniteDomain.Search.Config

/-!
# Restart thresholds

After how many nodes a search restarts. The Luby sequence is 1, 1, 2, 1, 1, 2, 4, …: its first 2^k - 1 terms
are the first 2^(k-1) - 1 terms twice and then 2^(k-1).
-/

namespace FiniteDomain

namespace Luby

/-- The least exponent from `k` on whose power of two is above `i`. -/
def exponentFrom (i k : Nat) : Nat := if i < Nat.pow 2 k then k else exponentFrom i (k + 1)
termination_by i + 1 - Nat.pow 2 k
decreasing_by
  have : Nat.pow 2 k < Nat.pow 2 (k + 1) := Nat.pow_lt_pow_right (by decide) (Nat.lt_succ_self k)
  omega

theorem exponentFrom_le (i k : Nat) : k ≤ exponentFrom i k := by
  fun_induction exponentFrom i k with
  | case1 => omega
  | case2 k _ ih => omega

theorem lt_two_pow_exponentFrom (i k : Nat) : i < Nat.pow 2 (exponentFrom i k) := by
  fun_induction exponentFrom i k with
  | case1 => assumption
  | case2 k _ ih => exact ih

/-- The term at place `i` of the sequence, counted from one. -/
def term (i : Nat) : Nat :=
  let k := exponentFrom i 1
  if i + 1 = Nat.pow 2 k then Nat.pow 2 (k - 1)
  else if 2 ≤ i then term (i - (Nat.pow 2 (k - 1) - 1))
  else 0
termination_by i
decreasing_by
  have hi : i < Nat.pow 2 (exponentFrom i 1) := lt_two_pow_exponentFrom i 1
  have hk : 2 ≤ exponentFrom i 1 := by
    have := exponentFrom_le i 1
    rcases Nat.lt_or_ge (exponentFrom i 1) 2 with h | h
    · have : exponentFrom i 1 = 1 := by omega
      rw [this] at hi
      have hi : i < 2 := hi
      omega
    · exact h
  have hpow : Nat.pow 2 1 ≤ Nat.pow 2 (exponentFrom i 1 - 1) := Nat.pow_le_pow_right (by decide) (by omega)
  have hpow : 2 ≤ Nat.pow 2 (exponentFrom i 1 - 1) := hpow
  omega

end Luby

/-- The greatest number of nodes that a threshold can name. -/
def thresholdLimit : Nat := Nat.pow 2 64 - 1

/-- A power by repeated squaring, multiplied to `acc` from the lowest bit of the exponent up. -/
def powerTimes (acc base : Float) (exponent : Nat) : Float :=
  let acc := if exponent % 2 = 1 then acc * base else acc
  if exponent / 2 = 0 then acc else powerTimes acc (base * base) (exponent / 2)
termination_by exponent
decreasing_by omega

/-- The least natural number that is not below, cut off at the limit. -/
def roundUp (x : Float) : Nat :=
  let whole := x.toUInt64
  if whole.toFloat < x then min (whole.toNat + 1) thresholdLimit else whole.toNat

/-- The scale times a power of the factor, rounded up. Exponents are cut off at `2 ^ 31 - 1`. -/
def geometricThreshold (scale : Nat) (factor : Float) (restarts : Nat) : Nat :=
  roundUp (scale.toUInt64.toFloat * powerTimes 1.0 factor (min restarts (Nat.pow 2 31 - 1)))

namespace RestartPolicy

/-- The number of nodes after which a restart is due, if so many restarts came before. -/
def threshold (p : RestartPolicy) (restarts : Nat) : Option Nat :=
  match p with
  | never | onSolution => none
  | luby scale => some (min (scale * Luby.term (restarts + 1)) thresholdLimit)
  | geometric scale factor => some (geometricThreshold scale factor restarts)

/-- So many nodes since the last restart are enough for the next. -/
def isDue (p : RestartPolicy) (restarts nodes : Nat) : Bool :=
  match p.threshold restarts with
  | some limit => limit ≤ nodes
  | none => false

/-- The policy restarts after each solution. -/
def atSolutions : RestartPolicy → Bool
  | onSolution => true
  | _ => false

/-- The policy restarts at all. -/
def isEnabled : RestartPolicy → Bool
  | never => false
  | _ => true

end RestartPolicy

end FiniteDomain
