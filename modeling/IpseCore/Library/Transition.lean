import Mathlib.Data.List.Induction
import Mathlib.Logic.Relation

/-!
# Machines, runs and invariants

A component is modelled as a total step function on events. A call that fails
still yields a state: writes made before the failure are kept, as in a dispatch
without storage transactions. The step therefore returns an `Outcome`, and the
machine's step forgets the result.

Runs are lists of events replayed from the initial state. Besides the final
state, `trace` records the state before each event, so that statements about the
calls accepted during a run can be phrased over the run itself.
-/

namespace Machine

/-- The result of one call together with the state it leaves behind. -/
structure Outcome (ε σ : Type*) where
  /-- `ok ()` for an accepted call, `error e` for a rejected one. -/
  result : Except ε Unit
  /-- The state after the call, also after a rejection. -/
  state : σ

/-- An accepted call. -/
def Outcome.ok {ε σ : Type*} (s : σ) : Outcome ε σ := ⟨.ok (), s⟩

/-- A rejected call, with the writes made before the rejection. -/
def Outcome.error {ε σ : Type*} (e : ε) (s : σ) : Outcome ε σ := ⟨.error e, s⟩

@[simp] theorem Outcome.ok_state {ε σ : Type*} (s : σ) : (Outcome.ok s : Outcome ε σ).state = s :=
  rfl

@[simp] theorem Outcome.error_state {ε σ : Type*} (e : ε) (s : σ) :
    (Outcome.error e s : Outcome ε σ).state = s :=
  rfl

@[simp] theorem Outcome.ok_result {ε σ : Type*} (s : σ) :
    (Outcome.ok s : Outcome ε σ).result = .ok () :=
  rfl

@[simp] theorem Outcome.error_result {ε σ : Type*} (e : ε) (s : σ) :
    (Outcome.error e s : Outcome ε σ).result = .error e :=
  rfl

/-- Whether the call was accepted. -/
def Outcome.accepted {ε σ : Type*} (o : Outcome ε σ) : Bool := o.result matches .ok ()

@[simp] theorem Outcome.accepted_ok {ε σ : Type*} (s : σ) :
    (Outcome.ok s : Outcome ε σ).accepted = true :=
  rfl

@[simp] theorem Outcome.accepted_error {ε σ : Type*} (e : ε) (s : σ) :
    (Outcome.error e s : Outcome ε σ).accepted = false :=
  rfl

/-- Go on with `f` after an accepted call and stop after a rejected one: the `?` of a
call made in the middle of another. -/
def Outcome.andThen {ε σ : Type*} (o : Outcome ε σ) (f : σ → Outcome ε σ) : Outcome ε σ :=
  match o.result with
  | .ok _ => f o.state
  | .error _ => o

@[simp] theorem Outcome.ok_andThen {ε σ : Type*} (s : σ) (f : σ → Outcome ε σ) :
    (Outcome.ok s).andThen f = f s := rfl

@[simp] theorem Outcome.error_andThen {ε σ : Type*} (e : ε) (s : σ) (f : σ → Outcome ε σ) :
    (Outcome.error e s).andThen f = Outcome.error e s := rfl

theorem Outcome.andThen_of_ok {ε σ : Type*} {o : Outcome ε σ} (h : o.result = .ok ())
    (f : σ → Outcome ε σ) : o.andThen f = f o.state := by
  simp [Outcome.andThen, h]

theorem Outcome.andThen_of_error {ε σ : Type*} {o : Outcome ε σ} {e : ε}
    (h : o.result = .error e) (f : σ → Outcome ε σ) : o.andThen f = o := by
  simp [Outcome.andThen, h]

/-- A property of the state after `o` that `f` keeps holds of the state after
`o.andThen f`, whether `o` was accepted or not. -/
theorem Outcome.andThen_state_of {ε σ : Type*} {P : σ → Prop} {o : Outcome ε σ}
    {f : σ → Outcome ε σ} (ho : P o.state) (hf : P (f o.state).state) :
    P (o.andThen f).state := by
  unfold Outcome.andThen
  split
  · exact hf
  · exact ho

theorem Outcome.accepted_iff {ε σ : Type*} {o : Outcome ε σ} :
    o.accepted = true ↔ o.result = .ok () := by
  rcases o with ⟨_ | _, s⟩ <;> simp [Outcome.accepted]

end Machine

/-- A machine: an initial state and a total step function on events. -/
structure Machine (σ E : Type*) where
  /-- The state before the first event. -/
  init : σ
  /-- The state after one event. -/
  step : σ → E → σ

namespace Machine

variable {σ E : Type*} (M : Machine σ E)

/-- Replay `es` from `s`. -/
def runFrom (s : σ) (es : List E) : σ := es.foldl M.step s

/-- Replay `es` from the initial state. -/
def run (es : List E) : σ := M.runFrom M.init es

/-- The state before each event of `es`, paired with that event. -/
def traceFrom : σ → List E → List (σ × E)
  | _, [] => []
  | s, e :: es => (s, e) :: traceFrom (M.step s e) es

/-- The states met by a run from the initial state, paired with the event applied to each. -/
def trace (es : List E) : List (σ × E) := M.traceFrom M.init es

@[simp] theorem run_nil : M.run [] = M.init := rfl

@[simp] theorem run_append_singleton (es : List E) (e : E) :
    M.run (es ++ [e]) = M.step (M.run es) e := by
  simp [run, runFrom, List.foldl_append]

theorem traceFrom_append (s : σ) (es es' : List E) :
    M.traceFrom s (es ++ es') = M.traceFrom s es ++ M.traceFrom (M.runFrom s es) es' := by
  induction es generalizing s with
  | nil => rfl
  | cons e es ih => simp [traceFrom, runFrom, ih]

@[simp] theorem trace_nil : M.trace [] = [] := rfl

@[simp] theorem trace_append_singleton (es : List E) (e : E) :
    M.trace (es ++ [e]) = M.trace es ++ [(M.run es, e)] := by
  simp [trace, traceFrom_append, traceFrom, run]

/-- Induction along a run: a property of the events so far and the state they
reach, established for the empty run and carried over one more event. -/
theorem run_induction {P : List E → σ → Prop} (hinit : P [] M.init)
    (hstep : ∀ es e, P es (M.run es) → P (es ++ [e]) (M.step (M.run es) e)) :
    ∀ es, P es (M.run es) := by
  intro es
  induction es using List.reverseRecOn with
  | nil => exact hinit
  | append_singleton es e ih =>
    rw [run_append_singleton]
    exact hstep es e ih

/-- Guarded induction along a run: a property `P` that every event allowed by `Q` keeps, as long
as the state it leads to satisfies a guard `G`, holds at the end of a run of allowed events
whose states all satisfy the guard. -/
theorem run_guarded_induction {P G : σ → Prop} {Q : E → Prop} (hinit : P M.init)
    (hstep : ∀ s e, Q e → P s → G (M.step s e) → P (M.step s e)) (es : List E)
    (hallowed : ∀ e ∈ es, Q e) (hguard : ∀ n ≤ es.length, G (M.run (es.take n))) :
    P (M.run es) := by
  induction es using List.reverseRecOn with
  | nil => exact hinit
  | append_singleton es e ih =>
    -- the guard on the prefixes of `es` is the guard on the shorter prefixes of `es ++ [e]`
    have hprefix : ∀ n ≤ es.length, G (M.run (es.take n)) := fun n hn => by
      have h := hguard n (by simp only [List.length_append]; omega)
      rwa [List.take_append_of_le_length hn] at h
    have hlast := hguard (es.length + 1) (by simp)
    rw [List.take_of_length_le (by simp), run_append_singleton] at hlast
    rw [run_append_singleton]
    exact hstep _ e (hallowed e (by simp))
      (ih (fun e' he' => hallowed e' (List.mem_append_left _ he')) hprefix) hlast

/-- States reachable from the initial state. -/
inductive Reachable : σ → Prop
  | init : Reachable M.init
  | step {s : σ} (e : E) : Reachable s → Reachable (M.step s e)

/-- Invariant induction that may use a property already known of reachable states. -/
theorem reachable_induction_with {Q P : σ → Prop} (hQ : ∀ s, M.Reachable s → Q s)
    (hinit : P M.init) (hstep : ∀ s e, M.Reachable s → Q s → P s → P (M.step s e))
    {s : σ} (hs : M.Reachable s) : P s := by
  induction hs with
  | init => exact hinit
  | step e hr ih => exact hstep _ e hr (hQ _ hr) ih

theorem reachable_run (es : List E) : M.Reachable (M.run es) := by
  induction es using List.reverseRecOn with
  | nil => exact Reachable.init
  | append_singleton es e ih =>
    rw [run_append_singleton]
    exact Reachable.step e ih

/-- Every reachable state is the end of some run. -/
theorem Reachable.exists_run {s : σ} (hs : M.Reachable s) : ∃ es, M.run es = s := by
  induction hs with
  | init => exact ⟨[], rfl⟩
  | step e _ ih =>
    obtain ⟨es, rfl⟩ := ih
    exact ⟨es ++ [e], run_append_singleton M es e⟩

/-- Every pre-state recorded by a trace is reachable. -/
theorem reachable_of_mem_trace {es : List E} {s : σ} {e : E} (h : (s, e) ∈ M.trace es) :
    M.Reachable s := by
  induction es using List.reverseRecOn with
  | nil => simp at h
  | append_singleton es e' ih =>
    rw [trace_append_singleton, List.mem_append, List.mem_singleton] at h
    rcases h with h | h
    · exact ih h
    · rw [Prod.mk.injEq] at h
      rw [h.1]
      exact M.reachable_run es

/-- The events recorded by a trace are the events of the run. -/
theorem mem_of_mem_trace {es : List E} {s : σ} {e : E} (h : (s, e) ∈ M.trace es) : e ∈ es := by
  induction es using List.reverseRecOn with
  | nil => simp at h
  | append_singleton es e' ih =>
    rw [trace_append_singleton, List.mem_append, List.mem_singleton] at h
    rcases h with h | h
    · exact List.mem_append_left _ (ih h)
    · rw [Prod.mk.injEq] at h
      rw [h.2]
      exact List.mem_append_right _ (List.mem_singleton_self _)

/-- Replaying events from a reachable state stays among the reachable states. -/
theorem Reachable.runFrom {s : σ} (hs : M.Reachable s) (es : List E) :
    M.Reachable (M.runFrom s es) := by
  induction es generalizing s with
  | nil => exact hs
  | cons e es ih => exact ih (Reachable.step e hs)

/-- Simulation by runs: when the image of the initial state is reachable in `N` and every
step of `M` is, on the image, a run of `N`, then `N` reaches the image of every state `M`
reaches. -/
theorem reachable_of_simulation {τ F : Type*} (N : Machine τ F) (f : σ → τ)
    (hinit : N.Reachable (f M.init))
    (hstep : ∀ s e, N.Reachable (f s) → ∃ fs, f (M.step s e) = N.runFrom (f s) fs)
    {s : σ} (hs : M.Reachable s) : N.Reachable (f s) := by
  induction hs with
  | init => exact hinit
  | step e _ ih =>
    obtain ⟨fs, hfs⟩ := hstep _ e ih
    rw [hfs]
    exact Reachable.runFrom N ih fs

/-- Refinement of a transition relation: when `f` maps every step of `M` from a reachable
state to a sequence of `r`-steps, it maps every reachable state to one that `r` reaches from the
image of the initial state. -/
theorem reflTransGen_of_reachable {τ : Type*} {r : τ → τ → Prop} (f : σ → τ)
    (hstep : ∀ s e, M.Reachable s → Relation.ReflTransGen r (f s) (f (M.step s e)))
    {s : σ} (hs : M.Reachable s) : Relation.ReflTransGen r (f M.init) (f s) := by
  induction hs with
  | init => exact Relation.ReflTransGen.refl
  | step e hr ih => exact ih.trans (hstep _ e hr)

end Machine
