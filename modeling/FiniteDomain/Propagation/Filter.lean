import FiniteDomain.Notice

/-!
# Filters

A filter is a run of a propagator: it looks at domains, narrows them in its own name, and may end in a
contradiction. What it narrowed before a contradiction stays narrowed.
-/

namespace FiniteDomain

/-- What a filter works on. -/
structure Scene where
  /-- The propagator in whose name domains are narrowed. -/
  self : PropId
  model : Model
  /-- The propagator asked not to be woken any more. -/
  passive : Bool := false
deriving Repr

abbrev Filter := ExceptT Contradiction (StateT Scene Activity)

namespace Filter

/-- Looks at the model. -/
def ask {α : Type} (question : Model → Except Fault α) : Filter α :=
  ExceptT.mk fun scene => do
    let answer ← Activity.quietly (question scene.model)
    return (.ok answer, scene)

/-- The propagator whose run this is. -/
def self : Filter PropId := ExceptT.mk fun scene => return (.ok scene.self, scene)

/-- Narrows a domain and says whether it changed. -/
def narrow (x : VarId) (μ : Mutation) : Filter Bool :=
  ExceptT.mk fun
    | ⟨self, model, passive⟩ => do
      let (result, model) ← model.narrow x μ (.propagator self)
      return (result, ⟨self, model, passive⟩)

/-- Ends in a contradiction for the given reason. -/
def fail {α : Type} (conflict : Conflict) : Filter α :=
  ExceptT.mk fun scene => return (.error ⟨conflict, .propagator scene.self⟩, scene)

/-- Ends the session. -/
def abort {α : Type} (fault : Fault) : Filter α := ExceptT.mk fun _ => throw fault

/-- The propagator need not be woken again below this point. -/
def setPassive : Filter Unit :=
  ExceptT.mk fun
    | ⟨self, model, _⟩ => return (.ok (), ⟨self, model, true⟩)

/-- Reports what the filter wrote down. -/
def log (entry : FilterEntry) : Filter Unit :=
  ExceptT.mk fun scene => do
    Activity.report (.filterLogged entry)
    return (.ok (), scene)

/-- The outcome of a filter without letting a contradiction end what follows. -/
def attempt {α : Type} (f : Filter α) : Filter (Except Contradiction α) :=
  ExceptT.mk fun scene => do
    let (outcome, scene) ← f.run scene
    return (.ok outcome, scene)

def lb (x : VarId) : Filter Int := ask fun m => m.lb x

def ub (x : VarId) : Filter Int := ask fun m => m.ub x

def contains (x : VarId) (v : Int) : Filter Bool := ask fun m => m.contains x v

def value? (x : VarId) : Filter (Option Int) := ask fun m => m.value? x

def isInstantiated (x : VarId) : Filter Bool := ask fun m => m.isInstantiated x

end Filter

end FiniteDomain
