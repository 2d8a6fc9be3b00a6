import FiniteDomain.Proofs.Model.Recounting
import FiniteDomain.Propagation.Filter

/-!
# Filters over some variables

A filter is *built* over some variables if it is put together from questions whose answers a relation between models
keeps, from narrowings of these variables, and from the ways to end. It *concludes* if it may besides ask not to be
woken again, as the last that it does. What is shown of all filters that are built in this way is shown by induction
on how they are.

* `Spans`, `Alike`: models in which filters over some variables have the same answers;
* `Built.confined`, `Concludes.confined`: only the domains of these variables are written, and a filter that ends in a
  contradiction has not asked not to be woken.
-/

namespace FiniteDomain

namespace Model

variable {m m' : Model} {l : List VarId} {x : VarId}

/-- The variables have the same bounds. -/
structure Spans (l : List VarId) (m m' : Model) : Prop where
  lb_eq : ∀ x ∈ l, m'.lb x = m.lb x
  ub_eq : ∀ x ∈ l, m'.ub x = m.ub x

/-- Whatever a filter asks of the variables has the same answer. -/
structure Alike (l : List VarId) (m m' : Model) : Prop extends Spans l m m' where
  contains_eq : ∀ x ∈ l, ∀ v, m'.contains x v = m.contains x v
  values_eq : ∀ x ∈ l, m'.values x = m.values x
  nextFrom_eq : ∀ x ∈ l, ∀ v, Value.Fits v →
    (do (← m'.domain x).nextFrom? m'.store v) = (do (← m.domain x).nextFrom? m.store v)
  previousFrom_eq : ∀ x ∈ l, ∀ v, Value.Fits v →
    (do (← m'.domain x).previousFrom? m'.store v) = (do (← m.domain x).previousFrom? m.store v)

theorem value?_eq_of_bounds (m : Model) (x : VarId) : m.value? x = (do
    let lb ← m.lb x
    let ub ← m.ub x
    return if lb == ub then some lb else none) := by
  rw [value?, lb, ub]
  cases m.domain x <;> rfl

theorem isInstantiated_eq_of_bounds (m : Model) (x : VarId) : m.isInstantiated x = (do
    let lb ← m.lb x
    let ub ← m.ub x
    return lb == ub) := by
  rw [isInstantiated, lb, ub]
  cases m.domain x <;> rfl

theorem Spans.value?_eq (h : Spans l m m') (hx : x ∈ l) : m'.value? x = m.value? x := by
  rw [value?_eq_of_bounds, value?_eq_of_bounds, h.lb_eq x hx, h.ub_eq x hx]

theorem Spans.isInstantiated_eq (h : Spans l m m') (hx : x ∈ l) : m'.isInstantiated x = m.isInstantiated x := by
  rw [isInstantiated_eq_of_bounds, isInstantiated_eq_of_bounds, h.lb_eq x hx, h.ub_eq x hx]

theorem Trims.spans (h : Trims l m m') : Spans l m m' := ⟨h.lb_eq, h.ub_eq⟩

end Model

namespace Filter

variable {α β : Type} {R R' : Model → Model → Prop} {l : List VarId}

/-- Models that are related give the same answer. -/
def Concerns (R : Model → Model → Prop) (question : Model → Except Fault α) : Prop :=
  ∀ m m', R m m' → question m' = question m

/-- The filter can come to the result. -/
def Produces (f : Filter α) (x : α) : Prop := ∃ s t before after, f.run s before = .ok (.ok x, t) after

/-- The filter is put together from questions that the relation keeps and narrowings of the variables. -/
inductive Built (R : Model → Model → Prop) (l : List VarId) : {α : Type} → Filter α → Prop
  | pure {α : Type} (x : α) : Built R l (Pure.pure x)
  | ask {α : Type} {question : Model → Except Fault α} : Concerns R question → Built R l (Filter.ask question)
  | narrow {x : VarId} (hx : x ∈ l) (μ : Mutation) : Built R l (Filter.narrow x μ)
  | fail {α : Type} (conflict : Conflict) : Built R l (Filter.fail conflict : Filter α)
  | abort {α : Type} (fault : Fault) : Built R l (Filter.abort fault : Filter α)
  | sequel {α β : Type} {f : Filter α} {g : α → Filter β} (hf : Built R l f)
      (hg : ∀ x, f.Produces x → Built R l (g x)) : Built R l (f >>= g)

/-- The filter is built over the variables, and may at last ask not to be woken again. -/
inductive Concludes (R : Model → Model → Prop) (l : List VarId) : Filter Unit → Prop
  | built {f : Filter Unit} (hf : Built R l f) : Concludes R l f
  | setPassive : Concludes R l Filter.setPassive
  | sequel {α : Type} {f : Filter α} {g : α → Filter Unit} (hf : Built R l f)
      (hg : ∀ x, f.Produces x → Concludes R l (g x)) : Concludes R l (f >>= g)

theorem Concerns.mono {question : Model → Except Fault α} (h : Concerns R question) (hR : ∀ m m', R' m m' → R m m') :
    Concerns R' question := fun m m' hm => h m m' (hR m m' hm)

/-- What an answer is, some model answers. -/
theorem Produces.of_ask {question : Model → Except Fault α} {x : α} (h : (Filter.ask question).Produces x) :
    ∃ m, question m = .ok x := by
  obtain ⟨s, t, before, after, hrun⟩ := h
  obtain ⟨y, middle, hanswer, hrest⟩ := Activity.run_bind_eq_ok.mp hrun
  cases hrest
  refine ⟨s.model, ?_⟩
  cases hq : question s.model with
  | error fault =>
    rw [hq] at hanswer
    cases hanswer
  | ok z =>
    rw [hq] at hanswer
    cases hanswer
    rfl

theorem Built.bind {f : Filter α} {g : α → Filter β} (hf : Built R l f) (hg : ∀ x, Built R l (g x)) :
    Built R l (f >>= g) := .sequel hf fun x _ => hg x

theorem Built.mono {f : Filter α} (h : Built R l f) (hR : ∀ m m', R' m m' → R m m') : Built R' l f := by
  induction h with
  | pure x => exact .pure x
  | ask hq => exact .ask (hq.mono hR)
  | narrow hx μ => exact .narrow hx μ
  | fail conflict => exact .fail conflict
  | abort fault => exact .abort fault
  | sequel _ _ ihf ihg => exact .sequel ihf ihg

theorem Concludes.pure : Concludes R l (Pure.pure ()) := .built (.pure ())

theorem Concludes.bind {f : Filter α} {g : α → Filter Unit} (hf : Built R l f) (hg : ∀ x, Concludes R l (g x)) :
    Concludes R l (f >>= g) := .sequel hf fun x _ => hg x

theorem Concludes.mono {f : Filter Unit} (h : Concludes R l f) (hR : ∀ m m', R' m m' → R m m') : Concludes R' l f := by
  induction h with
  | built hf => exact .built (hf.mono hR)
  | setPassive => exact .setPassive
  | sequel hf _ ihg => exact .sequel (hf.mono hR) ihg

/-! ### Questions about a variable -/

section Questions

variable {x : VarId} (hR : ∀ m m', R m m' → m.Spans l m') (hx : x ∈ l)

include hR hx

theorem Built.lb : Built R l (Filter.lb x) := .ask fun _ _ h => (hR _ _ h).lb_eq x hx

theorem Built.ub : Built R l (Filter.ub x) := .ask fun _ _ h => (hR _ _ h).ub_eq x hx

theorem Built.value? : Built R l (Filter.value? x) := .ask fun _ _ h => (hR _ _ h).value?_eq hx

theorem Built.isInstantiated : Built R l (Filter.isInstantiated x) := .ask fun _ _ h => (hR _ _ h).isInstantiated_eq hx

end Questions

/-! ### What is written -/

/-- **A filter that is built over some variables writes to their domains only.** -/
theorem Built.confined {f : Filter α} (h : Built R l f) (s : Scene) :
    (f.run s).Yields fun r => r.2.passive = s.passive ∧ Model.Rewrites (s.model.OwnsIn l) s.model r.2.model := by
  induction h generalizing s with
  | pure x => exact .pure ⟨rfl, .refl _⟩
  | ask _ => exact .skip fun x => .pure ⟨rfl, .refl _⟩
  | @narrow x hx μ =>
    have happly := @Activity.Gives.yields _ .worldly _ _ (s.model.narrow_gives x μ (.propagator s.self))
    exact .bind happly fun r hr => .pure ⟨rfl, Model.apply_confined hx hr⟩
  | fail _ => exact .pure ⟨rfl, .refl _⟩
  | abort _ => exact .throw
  | sequel _ _ ihf ihg =>
    intro before r after hrun
    obtain ⟨⟨q, t⟩, middle, hfirst, hrest⟩ := Activity.run_bind_eq_ok.mp hrun
    obtain ⟨hpassive, hwrites⟩ := ihf s before _ middle hfirst
    cases q with
    | error c =>
      cases hrest
      exact ⟨hpassive, hwrites⟩
    | ok x =>
      obtain ⟨hpassive', hwrites'⟩ := ihg x ⟨s, t, before, middle, hfirst⟩ t middle r after hrest
      exact ⟨hpassive'.trans hpassive, hwrites.trans_owns hwrites'⟩

/-- Only a filter that ends in no contradiction may have asked not to be woken. -/
theorem Concludes.confined {f : Filter Unit} (h : Concludes R l f) (s : Scene) :
    (f.run s).Yields fun r => (∀ c, r.1 = .error c → r.2.passive = s.passive) ∧
      Model.Rewrites (s.model.OwnsIn l) s.model r.2.model := by
  induction h generalizing s with
  | built hf =>
    intro before r after hrun
    obtain ⟨hpassive, hwrites⟩ := hf.confined s before r after hrun
    exact ⟨fun _ _ => hpassive, hwrites⟩
  | setPassive => exact .pure ⟨nofun, .refl _⟩
  | sequel hf _ ihg =>
    intro before r after hrun
    obtain ⟨⟨q, t⟩, middle, hfirst, hrest⟩ := Activity.run_bind_eq_ok.mp hrun
    obtain ⟨hpassive, hwrites⟩ := hf.confined s before _ middle hfirst
    cases q with
    | error c =>
      cases hrest
      exact ⟨fun _ _ => hpassive, hwrites⟩
    | ok x =>
      obtain ⟨hpassive', hwrites'⟩ := ihg x ⟨s, t, before, middle, hfirst⟩ t middle r after hrest
      exact ⟨fun c hc => (hpassive' c hc).trans hpassive, hwrites.trans_owns hwrites'⟩

end Filter

end FiniteDomain
