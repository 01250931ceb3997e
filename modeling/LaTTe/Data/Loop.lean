import Mathlib.Data.List.Basic

namespace LaTTe.Data

universe u v

variable {σ : Type u} {α : Type v}

/-! Bounded loops over an explicit state.  A loop that needs more rounds than
it was given returns `none`, so a result is always a finished run. -/

/-- Run `body` as long as `cond` holds, for at most `fuel` rounds. -/
def whileLoop (cond : σ → Bool) (body : σ → Option σ) : Nat → σ → Option σ
  | 0, state => if cond state then none else some state
  | fuel + 1, state =>
      if cond state then
        (body state).bind (whileLoop cond body fuel)
      else
        some state

theorem whileLoop_total (cond : σ → Bool) (body : σ → Option σ)
    (invariant : σ → Prop) (measure : σ → Nat)
    (preserved : ∀ state, invariant state → cond state = true →
      ∃ next, body state = some next ∧ invariant next ∧
        measure next < measure state)
    {fuel : Nat} {state : σ} (enough : measure state ≤ fuel)
    (holds : invariant state) :
    ∃ final, whileLoop cond body fuel state = some final ∧
      invariant final ∧ cond final = false := by
  induction fuel generalizing state with
  | zero =>
      cases hcond : cond state with
      | false => exact ⟨state, by simp [whileLoop, hcond], holds, hcond⟩
      | true =>
          obtain ⟨next, _, _, smaller⟩ := preserved state holds hcond
          omega
  | succ fuel ih =>
      cases hcond : cond state with
      | false => exact ⟨state, by simp [whileLoop, hcond], holds, hcond⟩
      | true =>
          obtain ⟨next, hbody, hnext, smaller⟩ := preserved state holds hcond
          obtain ⟨final, hrun, hfinal, hstop⟩ := ih (by omega) hnext
          exact ⟨final, by simp [whileLoop, hcond, hbody, hrun],
            hfinal, hstop⟩

theorem whileLoop_run {cond : σ → Bool} {body : σ → Option σ} (invariant : σ → Prop)
    (preserved : ∀ state next, invariant state → cond state = true →
      body state = some next → invariant next)
    {fuel : Nat} {state final : σ} (holds : invariant state)
    (run : whileLoop cond body fuel state = some final) :
    invariant final ∧ cond final = false := by
  induction fuel generalizing state with
  | zero =>
      cases hcond : cond state with
      | false =>
          obtain rfl : state = final := by simpa [whileLoop, hcond] using run
          exact ⟨holds, hcond⟩
      | true => simp [whileLoop, hcond] at run
  | succ fuel ih =>
      cases hcond : cond state with
      | false =>
          obtain rfl : state = final := by simpa [whileLoop, hcond] using run
          exact ⟨holds, hcond⟩
      | true =>
          rw [whileLoop, if_pos hcond, Option.bind_eq_some_iff] at run
          obtain ⟨next, hbody, run⟩ := run
          exact ih (preserved state next holds hcond hbody) run

theorem whileLoop_more {cond : σ → Bool} {body : σ → Option σ} {fuel more : Nat}
    {state final : σ} (enough : fuel ≤ more)
    (run : whileLoop cond body fuel state = some final) :
    whileLoop cond body more state = some final := by
  induction fuel generalizing more state with
  | zero =>
      cases hcond : cond state with
      | false => cases more <;> simpa [whileLoop, hcond] using run
      | true => simp [whileLoop, hcond] at run
  | succ fuel ih =>
      obtain ⟨more, rfl⟩ := Nat.exists_eq_succ_of_ne_zero (Nat.ne_zero_of_lt enough)
      cases hcond : cond state with
      | false => simpa [whileLoop, hcond] using run
      | true =>
          rw [whileLoop, if_pos hcond, Option.bind_eq_some_iff] at run
          obtain ⟨next, hbody, run⟩ := run
          rw [whileLoop, if_pos hcond, hbody, Option.bind_some]
          exact ih (Nat.le_of_succ_le_succ enough) run

/-! Loops over a list, with an invariant about the items already done. -/

theorem foldl_prefix {step : σ → α → σ} (invariant : List α → σ → Prop) {items : List α}
    {state : σ}
    (preserved : ∀ done item rest state, items = done ++ item :: rest →
      invariant done state → invariant (done ++ [item]) (step state item))
    (initially : invariant [] state) : invariant items (items.foldl step state) := by
  have from_done : ∀ rest done state, items = done ++ rest → invariant done state →
      invariant items (rest.foldl step state) := by
    intro rest
    induction rest with
    | nil =>
        intro done state split holds
        rw [split, List.append_nil]
        exact holds
    | cons item rest ih =>
        intro done state split holds
        exact ih (done ++ [item]) _ (by simp [split])
          (preserved done item rest state split holds)
  exact from_done items [] state rfl initially

theorem foldlM_prefix {step : σ → α → Option σ} (invariant : List α → σ → Prop)
    {items : List α} {state : σ}
    (preserved : ∀ done item rest state, items = done ++ item :: rest →
      invariant done state →
      ∃ next, step state item = some next ∧ invariant (done ++ [item]) next)
    (initially : invariant [] state) :
    ∃ final, items.foldlM step state = some final ∧ invariant items final := by
  have from_done : ∀ rest done state, items = done ++ rest → invariant done state →
      ∃ final, rest.foldlM step state = some final ∧ invariant items final := by
    intro rest
    induction rest with
    | nil =>
        intro done state split holds
        refine ⟨state, rfl, ?_⟩
        rw [split, List.append_nil]
        exact holds
    | cons item rest ih =>
        intro done state split holds
        obtain ⟨next, taken, kept⟩ := preserved done item rest state split holds
        obtain ⟨final, run, last⟩ := ih (done ++ [item]) next (by simp [split]) kept
        exact ⟨final, by simp [List.foldlM_cons, taken, run], last⟩
  exact from_done items [] state rfl initially

theorem foldlM_run {step : σ → α → Option σ} (invariant : List α → σ → Prop)
    {items : List α} {state final : σ}
    (preserved : ∀ done item rest state next, items = done ++ item :: rest →
      invariant done state → step state item = some next → invariant (done ++ [item]) next)
    (initially : invariant [] state) (run : items.foldlM step state = some final) :
    invariant items final := by
  have from_done : ∀ rest done state, items = done ++ rest → invariant done state →
      rest.foldlM step state = some final → invariant items final := by
    intro rest
    induction rest with
    | nil =>
        intro done state split holds run
        obtain rfl : state = final := Option.some.inj run
        rw [split, List.append_nil]
        exact holds
    | cons item rest ih =>
        intro done state split holds run
        rw [List.foldlM_cons, Option.bind_eq_bind, Option.bind_eq_some_iff] at run
        obtain ⟨next, taken, run⟩ := run
        exact ih (done ++ [item]) next (by simp [split])
          (preserved done item rest state next split holds taken) run
  exact from_done items [] state rfl initially run

/-! Loops that count from zero. -/

theorem foldlM_range {step : σ → Nat → Option σ} (invariant : Nat → σ → Prop) {n : Nat}
    {state : σ}
    (preserved : ∀ j < n, ∀ state, invariant j state →
      ∃ next, step state j = some next ∧ invariant (j + 1) next)
    (initially : invariant 0 state) :
    ∃ final, (List.range n).foldlM step state = some final ∧ invariant n final := by
  induction n with
  | zero => exact ⟨state, rfl, initially⟩
  | succ n ih =>
      obtain ⟨middle, run, holds⟩ := ih fun j below => preserved j (Nat.lt_succ_of_lt below)
      obtain ⟨final, taken, last⟩ := preserved n (Nat.lt_succ_self n) middle holds
      exact ⟨final, by simp [List.range_succ, run, taken], last⟩

theorem foldlM_range_run {step : σ → Nat → Option σ} (invariant : Nat → σ → Prop) {n : Nat}
    {state final : σ}
    (preserved : ∀ j < n, ∀ state next, invariant j state → step state j = some next →
      invariant (j + 1) next)
    (initially : invariant 0 state) (run : (List.range n).foldlM step state = some final) :
    invariant n final := by
  induction n generalizing final with
  | zero =>
      obtain rfl : state = final := Option.some.inj run
      exact initially
  | succ n ih =>
      rw [List.range_succ, List.foldlM_append, Option.bind_eq_bind,
        Option.bind_eq_some_iff] at run
      obtain ⟨middle, before, run⟩ := run
      have holds := ih (fun j below => preserved j (Nat.lt_succ_of_lt below)) before
      apply preserved n (Nat.lt_succ_self n) middle final holds
      simpa using run

/-- `run` visits `items` one after the other: from an invariant about the items
still to come it establishes the one about those left over. -/
def Traverses (invariant : List α → σ → Prop) (run : σ → Option σ)
    (items : List α) : Prop :=
  ∀ rest state, invariant (items ++ rest) state →
    ∃ next, run state = some next ∧ invariant rest next

namespace Traverses

variable {invariant : List α → σ → Prop} {β : Type v}

theorem nil : Traverses invariant some [] :=
  fun _ state holds => ⟨state, rfl, holds⟩

theorem bind {first second : σ → Option σ} {left right : List α}
    (before : Traverses invariant first left)
    (after : Traverses invariant second right) :
    Traverses invariant (fun state => (first state).bind second)
      (left ++ right) := by
  intro rest state holds
  rw [List.append_assoc] at holds
  obtain ⟨middle, hfirst, hmiddle⟩ := before _ state holds
  obtain ⟨next, hsecond, hnext⟩ := after rest middle hmiddle
  exact ⟨next, by simp [hfirst, hsecond], hnext⟩

theorem foldlM (step : σ → β → Option σ) (visited : β → List α)
    (outer : List β)
    (each : ∀ entry ∈ outer,
      Traverses invariant (fun state => step state entry) (visited entry)) :
    Traverses invariant (fun state => outer.foldlM step state)
      (outer.flatMap visited) := by
  induction outer with
  | nil => exact nil
  | cons entry entries ih =>
      have head := each entry (by simp)
      have tail := ih (fun other member => each other (by simp [member]))
      intro rest state holds
      obtain ⟨next, run, final⟩ := head.bind tail rest state
        (by simpa using holds)
      exact ⟨next, by simpa [List.foldlM_cons] using run, final⟩

end Traverses

def loopUntil {ρ : Type v} (body : σ → σ ⊕ ρ) : Nat → σ → Option ρ
  | 0, _ => none
  | fuel + 1, state =>
      match body state with
      | .inl next => loopUntil body fuel next
      | .inr result => some result

end LaTTe.Data
