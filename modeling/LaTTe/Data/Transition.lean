import Mathlib.Logic.Relation

namespace LaTTe.Data

universe u v

variable {σ : Type u} {ε : Type v}

/-! Runs of a transition system. -/

def Reachable (initial : σ → Prop) (step : σ → σ → Prop) (state : σ) : Prop :=
  ∃ start, initial start ∧ Relation.ReflTransGen step start state

namespace Reachable

variable {initial : σ → Prop} {step : σ → σ → Prop} {state next : σ}

theorem start (holds : initial state) : Reachable initial step state :=
  ⟨state, holds, .refl⟩

theorem tail (reached : Reachable initial step state) (taken : step state next) :
    Reachable initial step next := by
  obtain ⟨first, holds, run⟩ := reached
  exact ⟨first, holds, run.tail taken⟩

theorem weaken {more : σ → σ → Prop} (included : ∀ before after, step before after →
    more before after) (reached : Reachable initial step state) :
    Reachable initial more state := by
  obtain ⟨first, holds, run⟩ := reached
  exact ⟨first, holds, run.lift id included⟩

theorem invariant (holds : σ → Prop)
    (initially : ∀ state, initial state → holds state)
    (preserved : ∀ state next, holds state → step state next → holds next)
    (reached : Reachable initial step state) : holds state := by
  obtain ⟨first, starts, run⟩ := reached
  induction run with
  | refl => exact initially first starts
  | tail _ taken ih => exact preserved _ _ ih taken

end Reachable

def steps (step : σ → Option σ) : Nat → σ → Option σ
  | 0, state => some state
  | count + 1, state => (steps step count state).bind step

theorem reaches_of_steps {step : σ → Option σ} {count : Nat} {first state : σ}
    (taken : steps step count first = some state) :
    Relation.ReflTransGen (fun before after => step before = some after) first state := by
  induction count generalizing state with
  | zero =>
      cases taken
      exact .refl
  | succ count ih =>
      obtain ⟨before, earlier, last⟩ := Option.bind_eq_some_iff.mp taken
      exact (ih earlier).tail last

inductive Trace (exec : σ → ε → Option σ) (start : σ) : List (σ × ε) → σ → Prop where
  | start : Trace exec start [] start
  | step {past : List (σ × ε)} {state next : σ} {event : ε}
      (trace : Trace exec start past state) (taken : exec state event = some next) :
      Trace exec start (past ++ [(state, event)]) next

theorem Trace.checked {exec : σ → ε → Option σ} {allowed : σ → ε → Prop}
    [∀ state event, Decidable (allowed state event)] {start state final : σ}
    {past : List (σ × ε)} {events : List ε} (trace : Trace exec start past state)
    (each : ∀ step ∈ past, allowed step.1 step.2)
    (run : events.foldlM (fun state event => if allowed state event then exec state event else none)
      state = some final) :
    ∃ longer, longer.map Prod.snd = past.map Prod.snd ++ events ∧
      Trace exec start longer final ∧ ∀ step ∈ longer, allowed step.1 step.2 := by
  induction events generalizing past state with
  | nil =>
      cases run
      exact ⟨past, (List.append_nil _).symm, trace, each⟩
  | cons event events ih =>
      rw [List.foldlM_cons, Option.bind_eq_bind, Option.bind_eq_some_iff] at run
      obtain ⟨next, taken, rest⟩ := run
      split at taken
      · rename_i permitted
        have extended : ∀ step ∈ past ++ [(state, event)], allowed step.1 step.2 :=
          List.forall_mem_append.mpr ⟨each, List.forall_mem_singleton.mpr permitted⟩
        obtain ⟨longer, events', longerTrace, all⟩ := ih (trace.step taken) extended rest
        refine ⟨longer, events'.trans ?_, longerTrace, all⟩
        rw [List.map_append, List.append_assoc]
        rfl
      · cases taken

theorem Trace.foldlM {exec : σ → ε → Option σ} {start state final : σ} {past : List (σ × ε)}
    {events : List ε} (trace : Trace exec start past state)
    (run : events.foldlM exec state = some final) :
    ∃ longer, longer.map Prod.snd = past.map Prod.snd ++ events ∧
      Trace exec start longer final := by
  have every : events.foldlM (fun state event => if True then exec state event else none) state =
      some final := by simpa using run
  obtain ⟨longer, events', trace', _⟩ := trace.checked (fun _ _ => trivial) every
  exact ⟨longer, events', trace'⟩

theorem Trace.reachable {exec : σ → ε → Option σ} {allowed : σ → ε → Prop} {initial : σ → Prop}
    {start final : σ} {past : List (σ × ε)} (trace : Trace exec start past final)
    (each : ∀ step ∈ past, allowed step.1 step.2) (holds : initial start) :
    Reachable initial (fun before after => ∃ event, allowed before event ∧
      exec before event = some after) final := by
  induction trace with
  | start => exact .start holds
  | step _ taken ih =>
      rw [List.forall_mem_append, List.forall_mem_singleton] at each
      exact (ih each.1).tail ⟨_, each.2, taken⟩

theorem Trace.throughout_iff {exec : σ → ε → Option σ} {good : σ → Prop}
    {allowed : σ → ε → Prop} {start final : σ} {past : List (σ × ε)}
    (kept : ∀ state event next, good state → exec state event = some next →
      (good next ↔ allowed state event))
    (initially : good start) (trace : Trace exec start past final) :
    ((∀ step ∈ past, good step.1) ∧ good final) ↔ ∀ step ∈ past, allowed step.1 step.2 := by
  induction trace with
  | start => simpa using initially
  | step trace taken ih =>
      rw [List.forall_mem_append, List.forall_mem_append, List.forall_mem_singleton,
        List.forall_mem_singleton, ih]
      apply and_congr_right
      intro past
      exact kept _ _ _ (ih.mpr past).2 taken

/-! Labels of steps. -/

inductive Behaviour (step : σ → ε → σ → Prop) (start : σ) : List ε → σ → Prop where
  | start : Behaviour step start [] start
  | step {labels : List ε} {state next : σ} {label : ε}
      (run : Behaviour step start labels state) (taken : step state label next) :
      Behaviour step start (labels ++ [label]) next

namespace Behaviour

variable {step : σ → ε → σ → Prop} {start state : σ} {labels : List ε}

theorem invariant (holds : σ → Prop) (initially : holds start)
    (preserved : ∀ state label next, holds state → step state label next → holds next)
    (run : Behaviour step start labels state) : holds state := by
  induction run with
  | start => exact initially
  | step _ taken ih => exact preserved _ _ _ ih taken

theorem simulates {τ : Type*} {step' : τ → ε → τ → Prop} {start' : τ} {related : σ → τ → Prop}
    (simulated : ∀ state other label next, related state other → step state label next →
      ∃ next', step' other label next' ∧ related next next')
    (initially : related start start') (run : Behaviour step start labels state) :
    ∃ other, Behaviour step' start' labels other ∧ related state other := by
  induction run with
  | start => exact ⟨start', .start, initially⟩
  | step _ taken ih =>
      obtain ⟨other, run, relates⟩ := ih
      obtain ⟨next', taken', relates'⟩ := simulated _ _ _ _ relates taken
      exact ⟨next', run.step taken', relates'⟩

end Behaviour

end LaTTe.Data
