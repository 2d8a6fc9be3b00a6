/-!
# Ranges of integers

Values of variables are integers of 64 bits, and sums of linear constraints integers of 128 bits. Arithmetic
is done on `Int`; a result that has to fit one of the two ranges is tested against it.
-/

namespace FiniteDomain

namespace Value

/-- The least value that a variable can take. -/
def least : Int := -9223372036854775808

/-- The greatest value that a variable can take. -/
def greatest : Int := 9223372036854775807

/-- The value is one that a variable can take. -/
def Fits (v : Int) : Prop := least ≤ v ∧ v ≤ greatest

instance (v : Int) : Decidable (Fits v) := inferInstanceAs (Decidable (_ ∧ _))

/-- The result itself if it fits. -/
def ofInt? (v : Int) : Option Int := if Fits v then some v else none

/-- The nearest value that fits. -/
def clamp (v : Int) : Int := max least (min greatest v)

theorem ofInt?_eq_some_iff {v w : Int} : ofInt? v = some w ↔ Fits v ∧ v = w := by
  unfold ofInt?
  split <;> simp_all

theorem fits_clamp (v : Int) : Fits (clamp v) := by
  simp only [Fits, clamp, least, greatest]
  omega

end Value

namespace Sum

/-- The least sum that a linear constraint computes with. -/
def least : Int := -170141183460469231731687303715884105728

/-- The greatest sum that a linear constraint computes with. -/
def greatest : Int := 170141183460469231731687303715884105727

/-- The sum is one that a linear constraint computes with. -/
def Fits (s : Int) : Prop := least ≤ s ∧ s ≤ greatest

instance (s : Int) : Decidable (Fits s) := inferInstanceAs (Decidable (_ ∧ _))

/-- The result itself if it fits. -/
def ofInt? (s : Int) : Option Int := if Fits s then some s else none

theorem ofInt?_eq_some_iff {s t : Int} : ofInt? s = some t ↔ Fits s ∧ s = t := by
  unfold ofInt?
  split <;> simp_all

end Sum

end FiniteDomain
