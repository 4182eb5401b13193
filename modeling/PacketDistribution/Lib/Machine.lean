/-
PacketDistribution.Lib.Machine — labelled machines with a partial step
function, and the rules its safety and progress proofs use.

A machine is a set of start states and a function giving, for a state and
an action, the next state when the action is enabled. `Reach ok` collects
the states of the runs in which every step meets a condition `ok` on the
state before it and on the action, so one inductive type serves both the
unrestricted runs (`Reachable`) and the runs of a restricted schedule.

* `Reach.invariant` is the induction rule, `Reachable.simulation` the rule for
  a machine that refines another.
* `Reach.run` turns a concrete list of actions into a reached state.
* `run_filterMap` leaves out of a run the actions that change nothing.
* `Leads` composes runs of given lengths; `run_length_le` and `run_measure_le`
  bound runs by a measure.
* `product` runs a family of machines side by side, one action of one
  component at a time, and `Reach.component` projects its runs.
-/
import Mathlib.Logic.Function.Basic

namespace PacketDistribution.Lib

universe u v w x

/-- A labelled machine: start states and a partial step function. -/
structure Machine (σ : Type u) (α : Type v) where
  init : σ → Prop
  step : σ → α → Option σ

namespace Machine

variable {σ : Type u} {α : Type v} (m : Machine σ α)

/-- The states of the runs all of whose steps meet `ok`. -/
inductive Reach (ok : σ → α → Prop) : σ → Prop where
  | start {s : σ} : m.init s → Reach ok s
  | next {s t : σ} {a : α} : Reach ok s → ok s a → m.step s a = some t → Reach ok t

/-- The states of all runs. -/
abbrev Reachable : σ → Prop := m.Reach fun _ _ => True

variable {m}

/-- The invariant rule: what holds at the start and survives every step
that meets the condition holds in every reached state. -/
theorem Reach.invariant {ok : σ → α → Prop} {Inv : σ → Prop}
    (hinit : ∀ s, m.init s → Inv s)
    (hstep : ∀ s a t, Inv s → ok s a → m.step s a = some t → Inv t)
    {s : σ} (h : m.Reach ok s) : Inv s := by
  induction h with
  | start h0 => exact hinit _ h0
  | next _ hok hs ih => exact hstep _ _ _ ih hok hs

/-- A weaker condition on the steps reaches at least as much. -/
theorem Reach.mono {ok ok' : σ → α → Prop} (hok : ∀ s a, ok s a → ok' s a)
    {s : σ} (h : m.Reach ok s) : m.Reach ok' s := by
  induction h with
  | start h0 => exact .start h0
  | next _ ha hs ih => exact .next ih (hok _ _ ha) hs

/-! ## Simulation -/

/-- The simulation rule: where every step of one machine is a step of
another under a map of the states, or leaves the image as it is, the map
takes reachable states to reachable states. -/
theorem Reachable.simulation {τ : Type w} {β : Type x} {m' : Machine τ β} {f : σ → τ}
    (hinit : ∀ s, m.init s → m'.init (f s))
    (hstep : ∀ s a t, m.Reachable s → m.step s a = some t →
      f t = f s ∨ ∃ b, m'.step (f s) b = some (f t))
    {s : σ} (h : m.Reachable s) : m'.Reachable (f s) := by
  induction h with
  | start h0 => exact .start (hinit _ h0)
  | @next s t a hs _ ht ih =>
    obtain heq | ⟨b, hb⟩ := hstep s a t hs ht
    · exact heq ▸ ih
    · exact .next ih trivial hb

/-! ## Concrete runs -/

variable (m)

/-- The state a list of actions leads to, if every action is enabled. -/
def run : σ → List α → Option σ
  | s, [] => some s
  | s, a :: as => (m.step s a).bind fun t => run t as

/-- Every step of the run of `as` from `s` meets `ok`. -/
def Meets (ok : σ → α → Prop) : σ → List α → Prop
  | _, [] => True
  | s, a :: as => ok s a ∧ ∀ t ∈ m.step s a, Meets ok t as

variable {m}

/-- A run that meets the condition leads to a reached state. -/
theorem Reach.run {ok : σ → α → Prop} {t : σ} :
    ∀ {s : σ} {as : List α}, m.Reach ok s → m.Meets ok s as → m.run s as = some t →
      m.Reach ok t
  | s, [], h, _, hr => by
      have hst : s = t := Option.some.inj hr
      exact hst ▸ h
  | s, a :: as, h, hm, hr => by
      obtain ⟨hok, hrest⟩ := hm
      simp only [Machine.run, Option.bind_eq_some_iff] at hr
      obtain ⟨u, hu, hr⟩ := hr
      exact Reach.run (h.next hok hu) (hrest u hu) hr

/-- Without a condition, enabledness of the actions is all there is to check. -/
theorem Reachable.run {s t : σ} {as : List α} (h : m.Reachable s)
    (hr : m.run s as = some t) : m.Reachable t := by
  refine Reach.run h ?_ hr
  clear h hr
  induction as generalizing s with
  | nil => trivial
  | cons a as ih => exact ⟨trivial, fun u _ => ih⟩

/-- A condition that every action of the list meets in every state. -/
theorem Meets.of_forall {ok : σ → α → Prop} {as : List α} (h : ∀ s, ∀ a ∈ as, ok s a) (s : σ) :
    m.Meets ok s as := by
  induction as generalizing s with
  | nil => trivial
  | cons a as ih =>
    exact ⟨h s a List.mem_cons_self, fun t _ => ih (fun s b hb => h s b (List.mem_cons_of_mem a hb)) t⟩

instance Meets.decidable {ok : σ → α → Prop} [∀ s a, Decidable (ok s a)] :
    ∀ s as, Decidable (m.Meets ok s as)
  | _, [] => .isTrue trivial
  | s, a :: as =>
      have : ∀ t, Decidable (m.Meets ok t as) := fun t => decidable t as
      inferInstanceAs (Decidable (ok s a ∧ ∀ t ∈ m.step s a, m.Meets ok t as))

/-- A schedule that can be evaluated shows a reached state with a property. -/
theorem Reach.exists_run {ok : σ → α → Prop} {s : σ} (as : List α) (p : σ → Bool)
    (h : m.Reach ok s) (hm : m.Meets ok s as) (hp : (m.run s as).any p = true) :
    ∃ t, m.Reach ok t ∧ p t = true := by
  obtain ⟨t, ht, hpt⟩ := (Option.any_eq_true p _).mp hp
  exact ⟨t, h.run hm ht, hpt⟩

/-! ## Actions that change nothing -/

section Stutter

variable {β : Type x} {m' : Machine σ β} {g : α → Option β}

/-- A condition on the actions that do something. -/
theorem Meets.filterMap {ok : σ → β → Prop}
    (hstep : ∀ s a, m.step s a = (g a).elim (some s) (m'.step s)) {s : σ} {as : List α}
    (h : m.Meets (fun s a => ∀ b ∈ g a, ok s b) s as) : m'.Meets ok s (as.filterMap g) := by
  induction as generalizing s with
  | nil => trivial
  | cons a as ih =>
    obtain ⟨hnow, hlater⟩ := h
    rw [hstep] at hlater
    cases hg : g a with
    | none =>
      rw [hg] at hlater
      rw [List.filterMap_cons_none hg]
      exact ih (hlater s rfl)
    | some b =>
      rw [hg] at hlater
      rw [List.filterMap_cons_some hg]
      exact ⟨hnow b hg, fun t ht => ih (hlater t ht)⟩

end Stutter

/-! ## Runs of a length -/

theorem run_append {s t : σ} {as : List α} (h : m.run s as = some t) (bs : List α) :
    m.run s (as ++ bs) = m.run t bs := by
  induction as generalizing s with
  | nil => rw [List.nil_append, Option.some.inj h]
  | cons a as ih =>
    obtain ⟨u, hu, h⟩ := Option.bind_eq_some_iff.mp h
    rw [List.cons_append, Machine.run, hu]
    exact ih h

variable (m) in
/-- Some run of `n` steps leads from `s` to `t`. -/
def Leads (n : Nat) (s t : σ) : Prop :=
  ∃ as : List α, as.length = n ∧ m.run s as = some t

theorem Leads.step {s t : σ} {a : α} (h : m.step s a = some t) : m.Leads 1 s t :=
  ⟨[a], rfl, by simp [Machine.run, h]⟩

theorem Leads.trans {n k : Nat} {s t u : σ} (h : m.Leads n s t) (h' : m.Leads k t u) :
    m.Leads (n + k) s u := by
  obtain ⟨as, rfl, has⟩ := h
  obtain ⟨bs, rfl, hbs⟩ := h'
  exact ⟨as ++ bs, by simp, (run_append has bs).trans hbs⟩

/-! ## Runs that come to an end -/

section Measure

variable {Inv : σ → Prop} {μ : σ → Nat}

/-- Where every step costs one unit of a measure, a run is no longer than
the measure of its first state. -/
theorem run_length_le (hstep : ∀ s a t, Inv s → m.step s a = some t → Inv t ∧ μ t < μ s) :
    ∀ {s t : σ} {as : List α}, Inv s → m.run s as = some t → μ t + as.length ≤ μ s
  | s, t, [], _, hr => by
      have hst : s = t := Option.some.inj hr
      simp [hst]
  | s, t, a :: as, hs, hr => by
      simp only [Machine.run, Option.bind_eq_some_iff] at hr
      obtain ⟨u, hu, hr⟩ := hr
      obtain ⟨hinv, hlt⟩ := hstep s a u hs hu
      have hle := run_length_le hstep hinv hr
      simp only [List.length_cons]
      omega

/-- Where every step costs one unit until the measure is used up, a run of
that length has used it up. -/
theorem run_measure_le (hstep : ∀ s a t, Inv s → m.step s a = some t → Inv t ∧ μ t ≤ μ s - 1) :
    ∀ {s t : σ} {as : List α}, Inv s → m.run s as = some t → μ t ≤ μ s - as.length
  | s, t, [], _, hr => by
      have hst : s = t := Option.some.inj hr
      simp [hst]
  | s, t, a :: as, hs, hr => by
      simp only [Machine.run, Option.bind_eq_some_iff] at hr
      obtain ⟨u, hu, hr⟩ := hr
      obtain ⟨hinv, hlt⟩ := hstep s a u hs hu
      have hle := run_measure_le hstep hinv hr
      simp only [List.length_cons]
      omega

end Measure

/-! ## Machines side by side -/

section Product

variable {ι : Type w} [DecidableEq ι]

/-- The interleaving of a family of machines: an action names a component
and one action of it, and moves that component alone. -/
def product (m : ι → Machine σ α) : Machine (ι → σ) (ι × α) where
  init s := ∀ i, (m i).init (s i)
  step s a := ((m a.1).step (s a.1) a.2).map (Function.update s a.1)

/-- Seen from one component, a run of the interleaving is a run of that
component: the steps of the others are invisible to it. -/
theorem Reach.component {m : ι → Machine σ α} {ok : ι → σ → α → Prop} {s : ι → σ}
    (h : (product m).Reach (fun s a => ok a.1 (s a.1) a.2) s) (i : ι) :
    (m i).Reach (ok i) (s i) := by
  induction h with
  | start h0 => exact .start (h0 i)
  | @next s t a _ hok hs ih =>
    obtain ⟨u, hu, rfl⟩ := Option.map_eq_some_iff.mp hs
    by_cases hi : i = a.1
    · subst hi
      rw [Function.update_self]
      exact .next ih hok hu
    · rw [Function.update_of_ne hi]
      exact ih

theorem Reachable.component {m : ι → Machine σ α} {s : ι → σ} (h : (product m).Reachable s)
    (i : ι) : (m i).Reachable (s i) :=
  @Reach.component _ _ _ _ m (fun _ _ _ => True) s h i

end Product

end Machine

end PacketDistribution.Lib
