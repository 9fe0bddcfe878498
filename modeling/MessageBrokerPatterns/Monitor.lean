import MessageBrokerPatterns.ActionRun
import Mathlib.Algebra.BigOperators.Group.Finset.Piecewise

/-!
# Objects behind a lock

A `Body` is code that works on a shared state, one access at a time: an access changes the state, and
what it has seen there decides how the body goes on. Threads have programs of calls; a call acquires
the lock, makes its accesses among the steps of the other threads, and releases the lock.

Whatever the interleaving, the calls take effect as if each were executed in one piece, in the order in
which they released the lock: each has the result it has in that serial execution, and while the lock is
free the shared state is the one that the serial execution leaves.
-/

namespace Monitor
open ActionRun
variable {σ ω ρ : Type*}

inductive Body (σ ρ : Type*)
  | ret (r : ρ)
  | access (update : σ → σ) (next : σ → Body σ ρ)

/-- The body in one piece. -/
def Body.exec : Body σ ρ → σ → ρ × σ
  | .ret r, s => (r, s)
  | .access update next, s => (next s).exec (update s)

structure Thread (σ ω ρ : Type*) where
  todo : List ω
  running : Option (ω × Body σ ρ) := none

/-- The shared state, the holder of the lock, the threads, and the calls that have released the lock,
with their results. -/
structure World (σ ω ρ : Type*) where
  shared : σ
  owner : Option ℕ := none
  threads : ℕ → Thread σ ω ρ
  history : List (ℕ × ω × ρ) := []

inductive Action
  | acquire (t : ℕ)
  | access (t : ℕ)
  | release (t : ℕ)

def World.setThread (w : World σ ω ρ) (t : ℕ) (thread : Thread σ ω ρ) : World σ ω ρ :=
  { w with threads := Function.update w.threads t thread }

theorem World.setThread_self (w : World σ ω ρ) (t : ℕ) (thread : Thread σ ω ρ) :
    (w.setThread t thread).threads t = thread := by
  simp [setThread]

theorem World.setThread_of_ne (w : World σ ω ρ) {t u : ℕ} (h : u ≠ t) (thread : Thread σ ω ρ) :
    (w.setThread t thread).threads u = w.threads u := by
  simp [setThread, h]

variable (body : ω → Body σ ρ)

def step (w : World σ ω ρ) : Action → Option (World σ ω ρ)
  | .acquire t =>
      match w.owner, (w.threads t).todo with
      | none, op :: todo =>
          some { (w.setThread t { todo, running := some (op, body op) }) with owner := some t }
      | _, _ => none
  | .access t =>
      match (w.threads t).running with
      | some (op, .access update next) =>
          some { (w.setThread t { (w.threads t) with running := some (op, next w.shared) }) with
            shared := update w.shared }
      | _ => none
  | .release t =>
      match (w.threads t).running with
      | some (op, .ret r) =>
          some { (w.setThread t { (w.threads t) with running := none }) with
            owner := none
            history := w.history ++ [(t, op, r)] }
      | _ => none

def start (s : σ) (programs : ℕ → List ω) : World σ ω ρ where
  shared := s
  threads t := { todo := programs t }

def after (s : σ) (ops : List ω) : σ := ops.foldl (fun s op => ((body op).exec s).2) s

def calls (history : List (ℕ × ω × ρ)) : List ω := history.map fun e => e.2.1

/-- The calls of a thread that are over, then the running one, then those to come. -/
def World.program (w : World σ ω ρ) (t : ℕ) : List ω :=
  calls (w.history.filter fun e => e.1 = t) ++ ((w.threads t).running.map Prod.fst).toList ++
    (w.threads t).todo

variable {body}

theorem after_append (s : σ) (ops more : List ω) :
    after body s (ops ++ more) = after body (after body s ops) more := List.foldl_append

theorem calls_append (h more : List (ℕ × ω × ρ)) : calls (h ++ more) = calls h ++ calls more :=
  List.map_append

/-- Every recorded result is the one of the serial execution. -/
def Serial (body : ω → Body σ ρ) (s : σ) (history : List (ℕ × ω × ρ)) : Prop :=
  ∀ before t op r rest, history = before ++ (t, op, r) :: rest →
    ((body op).exec (after body s (calls before))).1 = r

theorem Serial.append {s : σ} {history : List (ℕ × ω × ρ)} (h : Serial body s history) {t : ℕ} {op : ω}
    {r : ρ} (hr : ((body op).exec (after body s (calls history))).1 = r) :
    Serial body s (history ++ [(t, op, r)]) := by
  intro before t' op' r' rest heq
  rcases List.append_eq_append_iff.mp heq with ⟨l, hbefore, hl⟩ | ⟨l, hhistory, hl⟩
  · cases l with
    | nil =>
      obtain ⟨⟨rfl, rfl, rfl⟩, -⟩ : (t = t' ∧ op = op' ∧ r = r') ∧ _ := by simpa using hl
      rw [hbefore, List.append_nil]
      exact hr
    | cons e l => simp at hl
  · cases l with
    | nil =>
      obtain ⟨⟨rfl, rfl, rfl⟩, -⟩ : (t' = t ∧ op' = op ∧ r' = r) ∧ _ := by simpa using hl
      rw [hhistory, List.append_nil] at hr
      exact hr
    | cons e l =>
      obtain ⟨rfl, -⟩ := List.cons.inj hl
      exact h before t' op' r' l hhistory

/-- At most the holder of the lock is running; what it has left to do, done now, ends as its whole call
would have from the state that the earlier calls left. -/
def Exclusive (body : ω → Body σ ρ) (s : σ) (w : World σ ω ρ) : Prop :=
  match w.owner with
  | none => (∀ t, (w.threads t).running = none) ∧ w.shared = after body s (calls w.history)
  | some t => (∀ u, u ≠ t → (w.threads u).running = none) ∧
      ∃ op b, (w.threads t).running = some (op, b) ∧
        b.exec w.shared = (body op).exec (after body s (calls w.history))

structure MonitorInv (body : ω → Body σ ρ) (s : σ) (programs : ℕ → List ω) (w : World σ ω ρ) :
    Prop where
  serial : Serial body s w.history
  exclusive : Exclusive body s w
  programs : ∀ t, w.program t = programs t

/-- Only the holder of the lock has a running call. -/
theorem Exclusive.owner {s : σ} {w : World σ ω ρ} (h : Exclusive body s w) {t : ℕ} {op : ω}
    {b : Body σ ρ} (hrun : (w.threads t).running = some (op, b)) :
    w.owner = some t ∧ (∀ u, u ≠ t → (w.threads u).running = none) ∧
      b.exec w.shared = (body op).exec (after body s (calls w.history)) := by
  unfold Exclusive at h
  cases ho : w.owner with
  | none =>
    rw [ho] at h
    rw [h.1 t] at hrun
    cases hrun
  | some u =>
    rw [ho] at h
    obtain ⟨hothers, op', b', hrun', hexec⟩ := h
    obtain rfl : t = u := by
      by_contra hne
      rw [hothers t hne] at hrun
      cases hrun
    rw [hrun, Option.some.injEq, Prod.mk.injEq] at hrun'
    obtain ⟨rfl, rfl⟩ := hrun'
    exact ⟨rfl, hothers, hexec⟩

theorem monitorInv_step {s : σ} {programs : ℕ → List ω} (w : World σ ω ρ) (a : Action)
    (w' : World σ ω ρ) (h : MonitorInv body s programs w) (hw : step body w a = some w') :
    MonitorInv body s programs w' := by
  cases a with
  | acquire t =>
    simp only [step] at hw
    split at hw
    · rename_i op todo ho htodo
      cases hw
      have hex := h.exclusive
      simp only [Exclusive, ho] at hex
      obtain ⟨hidle, hshared⟩ := hex
      refine ⟨h.serial, ⟨fun u hu => ?_, op, body op, ?_, ?_⟩, fun u => ?_⟩
      · exact congrArg Thread.running (w.setThread_of_ne hu _) |>.trans (hidle u)
      · exact congrArg Thread.running (w.setThread_self t _)
      · exact congrArg (body op).exec hshared
      · rw [← h.programs u]
        by_cases hu : u = t
        · subst hu
          simp [World.program, World.setThread, hidle, htodo]
        · simp [World.program, World.setThread, hu]
    · cases hw
  | access t =>
    simp only [step] at hw
    split at hw
    · rename_i op update next hrun
      cases hw
      obtain ⟨ho, hothers, hexec⟩ := h.exclusive.owner hrun
      refine ⟨h.serial, ?_, fun u => ?_⟩
      · simp only [Exclusive, World.setThread, ho]
        refine ⟨fun u hu => ?_, op, next w.shared, by simp, hexec⟩
        rw [Function.update_of_ne hu]
        exact hothers u hu
      · rw [← h.programs u]
        by_cases hu : u = t
        · subst hu
          simp [World.program, World.setThread, hrun]
        · simp [World.program, World.setThread, hu]
    · cases hw
  | release t =>
    simp only [step] at hw
    split at hw
    · rename_i op r hrun
      cases hw
      obtain ⟨-, hothers, hexec⟩ := h.exclusive.owner hrun
      have hres : ((body op).exec (after body s (calls w.history))).1 = r := by
        rw [← hexec]
        rfl
      have hshared : ((body op).exec (after body s (calls w.history))).2 = w.shared := by
        rw [← hexec]
        rfl
      refine ⟨h.serial.append hres, ⟨fun u => ?_, ?_⟩, fun u => ?_⟩
      · by_cases hu : u = t
        · subst hu
          exact congrArg Thread.running (w.setThread_self u _)
        · exact congrArg Thread.running (w.setThread_of_ne hu _) |>.trans (hothers u hu)
      · change w.shared = after body s (calls (w.history ++ [(t, op, r)]))
        rw [calls_append, after_append]
        exact hshared.symm
      · rw [← h.programs u]
        by_cases hu : u = t
        · subst hu
          simp [World.program, World.setThread, hrun, calls]
        · simp [World.program, World.setThread, hu, Ne.symm hu]
    · cases hw

theorem monitorInv_of_run {s : σ} {programs : ℕ → List ω} {actions : List Action} {w : World σ ω ρ}
    (hrun : run (step body) (start s programs) actions = some w) : MonitorInv body s programs w := by
  have hserial : Serial body s (start s programs : World σ ω ρ).history := by
    intro before t op r rest h
    simp [start] at h
  have hexclusive : Exclusive body s (start s programs) := ⟨fun t => rfl, rfl⟩
  exact run_invariant_of_step monitorInv_step ⟨hserial, hexclusive, fun t => rfl⟩ hrun

def World.Done (w : World σ ω ρ) (t : ℕ) : Prop :=
  (w.threads t).running = none ∧ (w.threads t).todo = []

/-- What finished calls add up to, call by call and thread by thread. -/
theorem sum_calls {M : Type*} [AddCommMonoid M] (f : ω → M) {n : ℕ} (history : List (ℕ × ω × ρ))
    (h : ∀ e ∈ history, e.1 < n) : ((calls history).map f).sum =
      ∑ t ∈ Finset.range n, ((calls (history.filter fun e => e.1 = t)).map f).sum := by
  induction history with
  | nil => simp [calls]
  | cons e history ih =>
    have hcons (t : ℕ) : ((calls ((e :: history).filter fun e => e.1 = t)).map f).sum =
        (if e.1 = t then f e.2.1 else 0) + ((calls (history.filter fun e => e.1 = t)).map f).sum := by
      by_cases ht : e.1 = t <;> simp [calls, ht]
    simp only [hcons, Finset.sum_add_distrib]
    rw [← ih fun e' he' => h e' (List.mem_cons_of_mem _ he'), Finset.sum_ite_eq,
      if_pos (Finset.mem_range.mpr (h e List.mem_cons_self))]
    simp [calls]

theorem MonitorInv.sum_done {M : Type*} [AddCommMonoid M] (f : ω → M) {s : σ} {n : ℕ}
    {programs : ℕ → List ω} {w : World σ ω ρ} (h : MonitorInv body s programs w)
    (hidle : ∀ t, n ≤ t → programs t = []) (hdone : ∀ t, w.Done t) :
    ((calls w.history).map f).sum = ∑ t ∈ Finset.range n, ((programs t).map f).sum := by
  have hprogram (t : ℕ) : calls (w.history.filter fun e => e.1 = t) = programs t := by
    rw [← h.programs t, World.program, (hdone t).1, (hdone t).2]
    simp
  have hlt : ∀ e ∈ w.history, e.1 < n := by
    intro e he
    by_contra hge
    have hnil := (hprogram e.1).trans (hidle e.1 (not_lt.mp hge))
    rw [calls, List.map_eq_nil_iff, List.filter_eq_nil_iff] at hnil
    exact hnil e he (by simp)
  rw [sum_calls f w.history hlt]
  simp only [hprogram]

theorem MonitorInv.shared_done {s : σ} {programs : ℕ → List ω} {w : World σ ω ρ}
    (h : MonitorInv body s programs w) (hdone : ∀ t, w.Done t) :
    w.shared = after body s (calls w.history) := by
  have hex := h.exclusive
  unfold Exclusive at hex
  split at hex
  · exact hex.2
  · rename_i t ho
    obtain ⟨-, op, b, hrun, -⟩ := hex
    rw [(hdone t).1] at hrun
    cases hrun

end Monitor
