import LaTTe.Classes.Processing
import Mathlib.Data.List.Basic
import Mathlib.Tactic.Common

namespace LaTTe.Classes.Processing

/-! Locks and states that calls of `processClass` leave behind. -/

section

variable {Class : Type}

inductive Guarded : Nat → Bool → List (Cmd Class) → Prop
  | nil : Guarded 0 false []
  | lock {held : Nat} {busy : Bool} {rest : List (Cmd Class)}
      (after : Guarded (held + 1) busy rest) : Guarded held busy (.lock :: rest)
  | unlock {held : Nat} {busy : Bool} {rest : List (Cmd Class)}
      (after : Guarded held busy rest) : Guarded (held + 1) busy (.unlock :: rest)
  | set {held : Nat} {busy : Bool} {rest : List (Cmd Class)} (state : ClassState)
      (after : Guarded held state.inProgress rest) : Guarded held busy (.set state :: rest)
  | stage {held : Nat} {busy : Bool} {rest : List (Cmd Class)} (state : ClassState)
      (body : List (Cmd Class)) (inside : Guarded held busy (body ++ rest))
      (after : Guarded held busy rest) : Guarded held busy (.stage state body :: rest)
  | find {rest : List (Cmd Class)} (after : Guarded 1 false rest) : Guarded 1 false (.find :: rest)
  | circular {rest : List (Cmd Class)} (after : Guarded 1 false rest) :
      Guarded 1 false (.circular :: rest)
  | work {held : Nat} {busy : Bool} {rest : List (Cmd Class)} (work : Work)
      (after : Guarded held busy rest) : Guarded held busy (.work work :: rest)
  | process {held : Nat} {busy : Bool} {rest : List (Cmd Class)} (cls : Class) (tostate : ClassState)
      (after : Guarded held busy rest) : Guarded held busy (.process cls tostate :: rest)
  | await {held : Nat} {busy : Bool} {rest : List (Cmd Class)}
      (after : Guarded held busy rest) : Guarded held busy (.await :: rest)
  | initFirst {held : Nat} {busy : Bool} {rest : List (Cmd Class)} (cls : Class)
      (after : Guarded held busy rest) : Guarded held busy (.initFirst cls :: rest)
  | checkFinal {held : Nat} {busy : Bool} {rest : List (Cmd Class)} (cls : Class)
      (after : Guarded held busy rest) : Guarded held busy (.checkFinal cls :: rest)
  | returnIfInit {rest : List (Cmd Class)} (after : Guarded 1 false rest) :
      Guarded 1 false (.returnIfInit :: rest)

namespace Guarded

variable {held : Nat} {busy : Bool} {rest : List (Cmd Class)}

theorem works {α : Type} (f : α → Work) (as : List α) (after : Guarded held busy rest) :
    Guarded held busy (as.map (fun a => .work (f a)) ++ rest) := by
  induction as with
  | nil => exact after
  | cons a as ih => exact .work (f a) ih

theorem initFirsts (classes : List Class) (after : Guarded held busy rest) :
    Guarded held busy (classes.map .initFirst ++ rest) := by
  induction classes with
  | nil => exact after
  | cons cls classes ih => exact .initFirst cls ih

theorem linkSuper (super : Option Class) (after : Guarded held busy rest) :
    Guarded held busy (linkSuper super ++ rest) := by
  cases super with
  | none => exact after
  | some super => exact .work _ (.process _ _ (.checkFinal _ after))

theorem constants (entries : List Constant) (after : Guarded held busy rest) :
    Guarded held busy (entries.flatMap resolveConstant ++ rest) := by
  induction entries with
  | nil => exact after
  | cons entry entries ih =>
      rw [List.flatMap_cons, List.append_assoc]
      cases entry with
      | string => exact .work _ ih
      | cls => exact .work _ ih
      | other => exact ih

theorem resolveConstants (entries : List Constant) (after : Guarded held false rest) :
    Guarded held busy (resolveConstants entries ++ rest) := by
  have split : Processing.resolveConstants entries ++ rest =
      .set .doingConstinit :: (entries.flatMap resolveConstant ++ .set .constinit :: rest) := by
    simp [Processing.resolveConstants]
  rw [split]
  exact .set .doingConstinit (constants entries (.set .constinit after))

end Guarded

variable (files : ClassFiles Class) (cls : Class)

theorem prepare_guarded {rest : List (Cmd Class)} (after : Guarded 1 false rest) :
    Guarded 1 false (prepare files cls ++ rest) := by
  have table : Guarded 1 true ((if files.isInterface cls then [] else [.work .buildInterfaceTable]) ++
      [.set .prepared] ++ rest) := by
    split
    · exact .set .prepared after
    · exact .work _ (.set .prepared after)
  unfold prepare
  simp only [List.append_assoc, List.cons_append, List.nil_append] at table ⊢
  refine .circular (.set .doingPrepare (.work _ (Guarded.linkSuper _ ?_)))
  exact Guarded.works (fun _ => .getClass) _ (.work _ (.work _ (.work _ table)))

theorem link_guarded {rest : List (Cmd Class)} (after : Guarded 1 false rest) :
    Guarded 1 false (link ++ rest) :=
  .set .doingLink (.work _ (.work _ (.work _ (.set .linked after))))

theorem initClass_guarded {rest : List (Cmd Class)} (after : Guarded 1 false rest) :
    Guarded 1 false (initClass files cls ++ rest) := by
  have clinit : Guarded 0 true ((if files.hasClinit cls then [.work .clinit] else []) ++
      [.lock, .set .ok] ++ rest) := by
    split
    · exact .work _ (.lock (.set .ok after))
    · exact .lock (.set .ok after)
  unfold initClass
  simp only [List.append_assoc, List.cons_append, List.nil_append] at clinit ⊢
  refine .returnIfInit (Guarded.resolveConstants _ (.set .doingInit (.unlock ?_)))
  exact Guarded.initFirsts _ clinit

theorem processClass_guarded : Guarded 0 false (processClass files cls) := by
  have last : Guarded 1 false [(.unlock : Cmd Class)] := .unlock .nil
  have ok := Guarded.stage .ok _ (initClass_guarded files cls last) last
  have linked := Guarded.stage .linked _ (link_guarded ok) ok
  have prepared := Guarded.stage .prepared _ (prepare_guarded files cls linked) linked
  exact .lock (.stage .loaded _ (.find prepared) prepared)

end

namespace Machine

variable {Thread Class : Type}

def Active (m : Machine Thread Class) (call : Call Class) : Prop :=
  ∃ t, call ∈ m.stack t

def Attended (m : Machine Thread Class) : Prop :=
  ∀ cls, (m.state cls).inProgress = true →
    ∃ call, m.Active call ∧ call.cls = cls ∧ call.id = m.owner cls

def Balanced (m : Machine Thread Class) : Prop :=
  ∀ call ∈ m.ended, call.taken = call.released

def Coded (m : Machine Thread Class) (call : Call Class) : Prop :=
  ∃ held busy, call.taken = call.released + held ∧ Guarded held busy call.rest ∧
    ((m.state call.cls).inProgress = true → m.owner call.cls = call.id → busy = true)

structure Sound (m : Machine Thread Class) : Prop where
  coded : ∀ call, m.Active call → m.Coded call
  nodup : ∀ t, ((m.stack t).map Call.id).Nodup
  apart : ∀ t t' call call', t ≠ t' → call ∈ m.stack t → call' ∈ m.stack t' → call.id ≠ call'.id
  fresh : ∀ call, m.Active call → call.id < m.nextId
  attended : m.Attended
  balanced : m.Balanced

theorem Sound.raise {m : Machine Thread Class} (sound : m.Sound) (raised : Thread → Bool) :
    Sound { m with raised := raised } :=
  ⟨sound.coded, sound.nodup, sound.apart, sound.fresh, sound.attended, sound.balanced⟩

theorem Initial.sound {m : Machine Thread Class} (initial : m.Initial) : m.Sound := by
  have none : ∀ call, ¬ m.Active call := by
    rintro call ⟨t, member⟩
    rw [initial.stack t] at member
    contradiction
  refine ⟨fun call active => absurd active (none call), fun t => ?_, fun t t' call call' _ member =>
    absurd ⟨t, member⟩ (none call), fun call active => absurd active (none call), ?_, ?_⟩
  · rw [initial.stack t]
    exact List.nodup_nil
  · intro cls busy
    rw [initial.state cls] at busy
    contradiction
  · intro call member
    rw [initial.ended] at member
    contradiction

variable [DecidableEq Thread] {m next : Machine Thread Class} {t : Thread} {call : Call Class}
variable {others : List (Call Class)}

theorem put_self (calls : List (Call Class)) (same : m.stack t = calls) : m.put t calls = m := by
  subst same
  rw [put, Function.update_eq_self]

theorem Sound.other_id (sound : m.Sound) (top : m.stack t = call :: others) {other : Call Class}
    {t' : Thread} (member : other ∈ m.stack t') (lower : t' = t → other ∈ others) :
    other.id ≠ call.id := by
  by_cases same : t' = t
  · have nodup := sound.nodup t
    rw [top, List.map_cons, List.nodup_cons] at nodup
    intro equal
    exact nodup.1 (equal ▸ List.mem_map_of_mem (lower same))
  · exact sound.apart t' t other call same member (top ▸ List.mem_cons_self)

/-- The uppermost call goes on. -/
theorem Sound.put (sound : m.Sound) (top : m.stack t = call :: others) (call' : Call Class)
    (id : call'.id = call.id) (cls : call'.cls = call.cls)
    (stack : next.stack = Function.update m.stack t (call' :: others))
    (nextId : next.nextId = m.nextId) (ended : next.ended = m.ended)
    (states : ∀ c, next.state c = m.state c ∧ next.owner c = m.owner c ∨
      c = call.cls ∧ next.owner c = call.id)
    (coded : next.Coded call') : next.Sound := by
  have lower : ∀ t' other, other ∈ next.stack t' →
      t' = t ∧ other = call' ∨ other ∈ m.stack t' ∧ other.id ≠ call.id := by
    intro t' other member
    rw [stack] at member
    by_cases same : t' = t
    · subst same
      rw [Function.update_self] at member
      cases List.mem_cons.mp member with
      | inl first => exact .inl ⟨rfl, first⟩
      | inr rest =>
          have old : other ∈ m.stack t' := top ▸ List.mem_cons_of_mem _ rest
          exact .inr ⟨old, sound.other_id top old fun _ => rest⟩
    · rw [Function.update_of_ne same] at member
      exact .inr ⟨member, sound.other_id top member fun equal => absurd equal same⟩
  have active : m.Active call := ⟨t, top ▸ List.mem_cons_self⟩
  have active' : next.Active call' := ⟨t, by rw [stack, Function.update_self]; exact List.mem_cons_self⟩
  have kept : ∀ other, m.Active other → other.id ≠ call.id → next.Active other := by
    rintro other ⟨t', member⟩ different
    refine ⟨t', ?_⟩
    rw [stack]
    by_cases same : t' = t
    · subst same
      rw [top] at member
      rw [Function.update_self]
      cases List.mem_cons.mp member with
      | inl first => exact absurd (congrArg Call.id first) different
      | inr rest => exact List.mem_cons_of_mem _ rest
    · rwa [Function.update_of_ne same]
  refine ⟨?_, fun t' => ?_, ?_, ?_, fun c busy => ?_, fun other member => ?_⟩
  · rintro other ⟨t', member⟩
    cases lower t' other member with
    | inl first => exact first.2 ▸ coded
    | inr old =>
        obtain ⟨held, busy, count, guarded, own⟩ := sound.coded other ⟨t', old.1⟩
        refine ⟨held, busy, count, guarded, fun progress owner => ?_⟩
        cases states other.cls with
        | inl same => exact own (same.1 ▸ progress) (same.2 ▸ owner)
        | inr set => exact absurd (owner.symm.trans set.2) old.2
  · rw [stack]
    by_cases same : t' = t
    · subst same
      have nodup := sound.nodup t'
      rw [top] at nodup
      rwa [Function.update_self, List.map_cons, id]
    · rw [Function.update_of_ne same]
      exact sound.nodup t'
  · intro t₁ t₂ first second different member member'
    cases lower t₁ first member with
    | inl here =>
        cases lower t₂ second member' with
        | inl here' => exact absurd (here.1.trans here'.1.symm) different
        | inr old' => exact fun equal => old'.2 (equal.symm.trans ((congrArg Call.id here.2).trans id))
    | inr old =>
        cases lower t₂ second member' with
        | inl here' => exact fun equal => old.2 (equal.trans ((congrArg Call.id here'.2).trans id))
        | inr old' => exact sound.apart t₁ t₂ first second different old.1 old'.1
  · rintro other ⟨t', member⟩
    rw [nextId]
    cases lower t' other member with
    | inl first =>
        rw [first.2, id]
        exact sound.fresh call active
    | inr old => exact sound.fresh other ⟨t', old.1⟩
  · cases states c with
    | inl same =>
        obtain ⟨other, here, own, owner⟩ := sound.attended c (same.1 ▸ busy)
        by_cases equal : other.id = call.id
        · obtain ⟨t', member⟩ := here
          by_cases same' : other = call
          · exact ⟨call', active', cls.trans (same' ▸ own),
              id.trans (equal.symm.trans (owner.trans same.2.symm))⟩
          · refine absurd equal (sound.other_id top member fun there => ?_)
            rw [there, top] at member
            exact (List.mem_cons.mp member).resolve_left same'
        · exact ⟨other, kept other here equal, own, owner.trans same.2.symm⟩
    | inr set => exact ⟨call', active', cls.trans set.1.symm, id.trans set.2.symm⟩
  · exact sound.balanced other (ended ▸ member)

/-- The uppermost call ends, and does not own a class in progress. -/
theorem Sound.pop (sound : m.Sound) (top : m.stack t = call :: others) (call' : Call Class)
    (stack : next.stack = Function.update m.stack t others)
    (nextId : next.nextId = m.nextId) (ended : next.ended = call' :: m.ended)
    (state : next.state = m.state) (owner : next.owner = m.owner)
    (balanced : call'.taken = call'.released)
    (idle : (m.state call.cls).inProgress = true → m.owner call.cls ≠ call.id) : next.Sound := by
  have lower : ∀ t' other, other ∈ next.stack t' → other ∈ m.stack t' := by
    intro t' other member
    rw [stack] at member
    by_cases same : t' = t
    · subst same
      rw [Function.update_self] at member
      exact top ▸ List.mem_cons_of_mem _ member
    · rwa [Function.update_of_ne same] at member
  refine ⟨?_, fun t' => ?_, ?_, ?_, fun c busy => ?_, fun other member => ?_⟩
  · rintro other ⟨t', member⟩
    unfold Coded
    rw [state, owner]
    exact sound.coded other ⟨t', lower t' other member⟩
  · rw [stack]
    by_cases same : t' = t
    · subst same
      have nodup := sound.nodup t'
      rw [top, List.map_cons, List.nodup_cons] at nodup
      rw [Function.update_self]
      exact nodup.2
    · rw [Function.update_of_ne same]
      exact sound.nodup t'
  · intro t₁ t₂ first second different member member'
    exact sound.apart t₁ t₂ first second different (lower t₁ first member) (lower t₂ second member')
  · rintro other ⟨t', member⟩
    rw [nextId]
    exact sound.fresh other ⟨t', lower t' other member⟩
  · rw [state] at busy
    obtain ⟨other, ⟨t', member⟩, own, owns⟩ := sound.attended c busy
    refine ⟨other, ⟨t', ?_⟩, own, by rw [owner, owns]⟩
    rw [stack]
    by_cases same : t' = t
    · subst same
      rw [top] at member
      rw [Function.update_self]
      cases List.mem_cons.mp member with
      | inl first =>
          subst first
          subst own
          exact absurd owns.symm (idle busy)
      | inr rest => exact rest
    · rwa [Function.update_of_ne same]
  · rw [ended] at member
    cases List.mem_cons.mp member with
    | inl last => exact last ▸ balanced
    | inr old => exact sound.balanced other old

/-- A call is made. -/
theorem Sound.enter (sound : (m.put t others).Sound) (files : ClassFiles Class) (cls : Class)
    (tostate : ClassState) : (m.enter files t cls tostate others).Sound := by
  have lower : ∀ t' other, other ∈ (m.enter files t cls tostate others).stack t' →
      t' = t ∧ other = ⟨m.nextId, cls, tostate, processClass files cls, 0, 0⟩ ∨
        other ∈ (m.put t others).stack t' := by
    intro t' other member
    have member : other ∈ Function.update m.stack t
      (⟨m.nextId, cls, tostate, processClass files cls, 0, 0⟩ :: others) t' := member
    show _ ∨ other ∈ Function.update m.stack t others t'
    by_cases same : t' = t
    · subst same
      rw [Function.update_self] at member ⊢
      exact (List.mem_cons.mp member).imp (fun first => ⟨rfl, first⟩) id
    · rw [Function.update_of_ne same] at member ⊢
      exact .inr member
  have older : ∀ t' other, other ∈ (m.put t others).stack t' → other.id < m.nextId :=
    fun t' other member => sound.fresh other ⟨t', member⟩
  refine ⟨?_, fun t' => ?_, ?_, ?_, fun c busy => ?_, sound.balanced⟩
  · rintro other ⟨t', member⟩
    cases lower t' other member with
    | inl first =>
        refine first.2 ▸ ⟨0, false, rfl, processClass_guarded files cls, fun busy owner => ?_⟩
        obtain ⟨old, ⟨t', member⟩, _, owns⟩ := sound.attended cls busy
        have less := older t' old member
        have owns : old.id = m.owner cls := owns
        have owner : m.owner cls = m.nextId := owner
        omega
    | inr old => exact sound.coded other ⟨t', old⟩
  · have nodup := sound.nodup t'
    have nodup : ((Function.update m.stack t others t').map Call.id).Nodup := nodup
    show ((Function.update m.stack t
      (⟨m.nextId, cls, tostate, processClass files cls, 0, 0⟩ :: others) t').map Call.id).Nodup
    by_cases same : t' = t
    · subst same
      rw [Function.update_self] at nodup ⊢
      rw [List.map_cons, List.nodup_cons]
      refine ⟨fun member => ?_, nodup⟩
      obtain ⟨other, member, id⟩ := List.mem_map.mp member
      have less := older t' other (by
        show other ∈ Function.update m.stack t' others t'
        rwa [Function.update_self])
      exact absurd less (id ▸ Nat.lt_irrefl _)
    · rw [Function.update_of_ne same] at nodup ⊢
      exact nodup
  · intro t₁ t₂ first second different member member'
    cases lower t₁ first member with
    | inl here =>
        cases lower t₂ second member' with
        | inl here' => exact absurd (here.1.trans here'.1.symm) different
        | inr old' =>
            have less := older t₂ second old'
            rw [here.2]
            exact (Nat.ne_of_lt less).symm
    | inr old =>
        cases lower t₂ second member' with
        | inl here' =>
            have less := older t₁ first old
            rw [here'.2]
            exact Nat.ne_of_lt less
        | inr old' => exact sound.apart t₁ t₂ first second different old old'
  · rintro other ⟨t', member⟩
    cases lower t' other member with
    | inl first => exact first.2 ▸ Nat.lt_succ_self m.nextId
    | inr old => exact Nat.lt_succ_of_lt (older t' other old)
  · obtain ⟨other, ⟨t', member⟩, own, owns⟩ := sound.attended c busy
    refine ⟨other, ⟨t', ?_⟩, own, owns⟩
    have member : other ∈ Function.update m.stack t others t' := member
    show other ∈ Function.update m.stack t
      (⟨m.nextId, cls, tostate, processClass files cls, 0, 0⟩ :: others) t'
    by_cases same : t' = t
    · subst same
      rw [Function.update_self] at member ⊢
      exact List.mem_cons_of_mem _ member
    · rwa [Function.update_of_ne same] at member ⊢

theorem Sound.goOn (sound : m.Sound) (top : m.stack t = call :: others) {held : Nat} {busy : Bool}
    {rest : List (Cmd Class)} (count : call.taken = call.released + held)
    (after : Guarded held busy rest)
    (own : (m.state call.cls).inProgress = true → m.owner call.cls = call.id → busy = true) :
    (m.put t ({ call with rest := rest } :: others)).Sound :=
  sound.put top { call with rest := rest } rfl rfl rfl rfl rfl (fun _ => .inl ⟨rfl, rfl⟩)
    ⟨held, busy, count, after, own⟩

theorem Sound.leave (sound : m.Sound) (top : m.stack t = call :: others) (raised : Bool)
    (count : call.taken = call.released)
    (own : (m.state call.cls).inProgress = true → m.owner call.cls = call.id → false = true) :
    (m.leave t call others raised).Sound :=
  sound.pop top call rfl rfl rfl rfl rfl count fun progress owner =>
    absurd (own progress owner) Bool.false_ne_true

variable [DecidableEq Class]

theorem Sound.release (sound : m.Sound) (top : m.stack t = call :: others) (raised : Bool)
    (count : call.taken = call.released + 1)
    (own : (m.state call.cls).inProgress = true → m.owner call.cls = call.id → false = true) :
    (m.release t call others raised).Sound :=
  sound.pop top { call with released := call.released + 1 } rfl rfl rfl rfl rfl count
    fun progress owner => absurd (own progress owner) Bool.false_ne_true

theorem Sound.setState (sound : m.Sound) (top : m.stack t = call :: others) {held : Nat}
    {rest : List (Cmd Class)} (state : ClassState) (count : call.taken = call.released + held)
    (after : Guarded held state.inProgress rest) :
    ((m.setState call state).put t ({ call with rest := rest } :: others)).Sound := by
  refine sound.put top { call with rest := rest } rfl rfl rfl rfl rfl (fun c => ?_)
    ⟨held, state.inProgress, count, after, fun progress _ => ?_⟩
  · show Function.update m.state call.cls state c = _ ∧
      Function.update m.owner call.cls call.id c = _ ∨ c = call.cls ∧
        Function.update m.owner call.cls call.id c = _
    by_cases same : c = call.cls
    · subst same
      exact .inr ⟨rfl, Function.update_self _ _ _⟩
    · exact .inl ⟨Function.update_of_ne same _ _, Function.update_of_ne same _ _⟩
  · have progress : (Function.update m.state call.cls state call.cls).inProgress = true := progress
    rwa [Function.update_self] at progress

/-- The next step of a call, when the superclass is not final. -/
theorem Sound.advance (sound : m.Sound) (files : ClassFiles Class)
    (top : m.stack t = call :: others)
    (allowed : ∀ cls rest, call.rest = .checkFinal cls :: rest → files.isFinal cls = false)
    (result : m.advance files t call others = some next) : next.Sound := by
  obtain ⟨held, busy, count, guarded, own⟩ := sound.coded call ⟨t, top ▸ List.mem_cons_self⟩
  unfold Machine.advance at result
  cases code : call.rest with
  | nil =>
      rw [code] at result guarded
      cases guarded with
      | nil =>
          cases result
          exact sound.leave top false count own
  | cons cmd rest =>
      rw [code] at result guarded
      cases guarded with
      | lock after =>
          by_cases free : m.mayLock t call.cls = true
          · obtain rfl := Option.some.inj ((if_pos free).symm.trans result)
            exact sound.put top { call with rest := rest, taken := call.taken + 1 } rfl rfl rfl rfl
              rfl (fun _ => .inl ⟨rfl, rfl⟩)
              ⟨held + 1, busy, by show call.taken + 1 = call.released + (held + 1); omega, after, own⟩
          · exact nomatch (if_neg free).symm.trans result
      | @unlock held _ _ after =>
          cases result
          exact sound.put top { call with rest := rest, released := call.released + 1 } rfl rfl rfl
            rfl rfl (fun _ => .inl ⟨rfl, rfl⟩)
            ⟨held, busy, by show call.taken = call.released + 1 + held; omega, after, own⟩
      | set state after =>
          cases result
          exact sound.setState top state count after
      | stage state body inside after =>
          cases result
          refine sound.goOn top count ?_ own
          split
          · exact inside
          · exact after
      | find after =>
          cases result
          exact sound.goOn top count after own
      | circular after =>
          by_cases again : m.state call.cls = .doingPrepare
          · obtain rfl := Option.some.inj ((if_pos again).symm.trans result)
            exact sound.release top true count own
          · obtain rfl := Option.some.inj ((if_neg again).symm.trans result)
            exact sound.goOn top count after own
      | work _ after =>
          cases result
          exact sound.goOn top count after own
      | process cls tostate after =>
          cases result
          exact (sound.goOn top count (.await after) own).enter files cls tostate
      | await after =>
          cases result
          exact sound.goOn top count after own
      | initFirst cls after =>
          by_cases done : m.state cls = .ok
          · obtain rfl := Option.some.inj ((if_pos done).symm.trans result)
            exact sound.goOn top count after own
          · obtain rfl := Option.some.inj ((if_neg done).symm.trans result)
            exact (sound.goOn top count (.await after) own).enter files cls .ok
      | checkFinal cls after =>
          have fine : ¬ files.isFinal cls = true := by
            rw [allowed cls rest code]
            exact Bool.false_ne_true
          obtain rfl := Option.some.inj ((if_neg fine).symm.trans result)
          exact sound.goOn top count after own
      | returnIfInit after =>
          by_cases again : m.state call.cls = .doingInit
          · obtain rfl := Option.some.inj ((if_pos again).symm.trans result)
            exact sound.release top false count own
          · obtain rfl := Option.some.inj ((if_neg again).symm.trans result)
            exact sound.goOn top count after own

/-! The runs of the threads. -/

def Careful (files : ClassFiles Class) (m : Machine Thread Class) : Event Thread Class → Prop
  | .fail _ => False
  | .advance t => ∀ call others cls rest, m.stack t = call :: others →
      call.rest = .checkFinal cls :: rest → files.isFinal cls = false
  | _ => True

inductive Run (files : ClassFiles Class)
    (allowed : Machine Thread Class → Event Thread Class → Prop) : Machine Thread Class → Prop
  | start {m : Machine Thread Class} (initial : m.Initial) : Run files allowed m
  | step {m next : Machine Thread Class} (run : Run files allowed m) (event : Event Thread Class)
      (permitted : allowed m event) (result : m.step files event = some next) :
      Run files allowed next

theorem Sound.missing (sound : m.Sound) (top : m.stack t = call :: others)
    {rest : List (Cmd Class)} (code : call.rest = .find :: rest) :
    (m.release t call others true).Sound := by
  obtain ⟨held, busy, count, guarded, own⟩ := sound.coded call ⟨t, top ▸ List.mem_cons_self⟩
  rw [code] at guarded
  cases guarded with
  | find after => exact sound.release top true count own

/-- A careful event keeps what holds of the calls. -/
theorem Sound.step (sound : m.Sound) (files : ClassFiles Class) (event : Event Thread Class)
    (careful : m.Careful files event) (result : m.step files event = some next) :
    next.Sound := by
  unfold Machine.step at result
  cases event with
  | fail t => exact careful.elim
  | call t cls tostate =>
      have entered : (m.enter files t cls tostate (m.stack t)).Sound :=
        Sound.enter (by rwa [put_self _ rfl]) files cls tostate
      cases top : m.stack t with
      | nil =>
          simp only [top] at result
          by_cases raised : m.raised t = true
          · exact nomatch (if_pos raised).symm.trans result
          · obtain rfl := Option.some.inj ((if_neg raised).symm.trans result)
            exact top ▸ entered
      | cons call others =>
          simp only [top] at result
          by_cases inside : (!m.raised t && working call) = true
          · obtain rfl := Option.some.inj ((if_pos inside).symm.trans result)
            exact top ▸ entered
          · exact nomatch (if_neg inside).symm.trans result
  | advance t =>
      cases top : m.stack t with
      | nil =>
          simp only [top] at result
          contradiction
      | cons call others =>
          simp only [top] at result
          by_cases raised : m.raised t = true
          · exact nomatch (if_pos raised).symm.trans result
          · exact sound.advance files top (fun cls rest => careful call others cls rest top)
              ((if_neg raised).symm.trans result)
  | missing t =>
      cases top : m.stack t with
      | nil =>
          simp only [top] at result
          contradiction
      | cons call others =>
          simp only [top] at result
          split at result
          · rename_i rest code
            by_cases raised : m.raised t = true
            · exact nomatch (if_pos raised).symm.trans result
            · obtain rfl := Option.some.inj ((if_neg raised).symm.trans result)
              exact sound.missing top code
          · contradiction
  | handle t =>
      cases top : m.stack t with
      | nil =>
          simp only [top] at result
          obtain rfl := Option.some.inj result
          exact sound.raise _
      | cons call others =>
          simp only [top] at result
          by_cases inside : working call = true
          · obtain rfl := Option.some.inj ((if_pos inside).symm.trans result)
            exact sound.raise _
          · exact nomatch (if_neg inside).symm.trans result

/-- In every run of careful events each call that ended released the lock as often as it took
it, and each class in progress is owned by a call that has not ended. -/
theorem calls_leave_nothing (files : ClassFiles Class) (run : Run files (Careful files) m) :
    m.Balanced ∧ m.Attended := by
  have sound : m.Sound := by
    induction run with
    | start initial => exact initial.sound
    | step run event permitted result ih => exact ih.step files event permitted result
  exact ⟨sound.balanced, sound.attended⟩

/-! A class whose superclass is not found. -/

def subclassFiles : ClassFiles Bool :=
  ⟨fun cls => if cls then none else some true, fun _ => [], fun _ => [], fun _ => false,
    fun _ => false, fun _ => false⟩

def loadedMachine : Machine Unit Bool :=
  ⟨fun _ => .loaded, fun _ => 0, fun _ => none, fun _ => [], fun _ => false, 0, []⟩

theorem loadedMachine_initial : loadedMachine.Initial :=
  ⟨fun _ => rfl, fun _ => rfl, rfl⟩

theorem calls_leave_nothing_loaded :
    ∃ m : Machine Unit Bool, Run subclassFiles (Careful subclassFiles) m ∧ m.ended.length = 1 ∧
      m.Balanced ∧ m.Attended := by
  have careful : ∀ m : Machine Unit Bool, m.Careful subclassFiles (.advance ()) :=
    fun _ _ _ _ _ _ _ => rfl
  have start : Run subclassFiles (Careful subclassFiles) loadedMachine :=
    .start loadedMachine_initial
  have called := start.step (.call () false .loaded) trivial rfl
  have locked := called.step (.advance ()) (careful _) rfl
  have loaded := locked.step (.advance ()) (careful _) rfl
  have notPrepared := loaded.step (.advance ()) (careful _) rfl
  have notLinked := notPrepared.step (.advance ()) (careful _) rfl
  have notInitialized := notLinked.step (.advance ()) (careful _) rfl
  have unlocked := notInitialized.step (.advance ()) (careful _) rfl
  have run := unlocked.step (.advance ()) (careful _) rfl
  exact ⟨_, run, rfl, calls_leave_nothing subclassFiles run⟩

theorem missing_superclass_leaves_lock :
    ∃ m : Machine Unit Bool, Run subclassFiles (fun _ _ => True) m ∧ ¬ m.Balanced ∧
      ¬ m.Attended := by
  have start : Run subclassFiles (fun _ _ => True) loadedMachine := .start loadedMachine_initial
  have called := start.step (.call () false .linked) trivial rfl
  have locked := called.step (.advance ()) trivial rfl
  have loaded := locked.step (.advance ()) trivial rfl
  have preparing := loaded.step (.advance ()) trivial rfl
  have notCircular := preparing.step (.advance ()) trivial rfl
  have marked := notCircular.step (.advance ()) trivial rfl
  have allocated := marked.step (.advance ()) trivial rfl
  have run := allocated.step (.fail ()) trivial rfl
  refine ⟨_, run, fun balanced => ?_, fun attended => ?_⟩
  · exact absurd (balanced _ List.mem_cons_self) (by decide)
  · obtain ⟨call, ⟨_, member⟩, _⟩ := attended false rfl
    exact absurd member List.not_mem_nil

end Machine

end LaTTe.Classes.Processing
