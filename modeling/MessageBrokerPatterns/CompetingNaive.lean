import MessageBrokerPatterns.CompetingConsumer

/-!
# The bare-read baseline

`run_bare_read_consumer` reads the stream by `XREAD` from a cursor of its own: no group, no ack. Any
number of workers run among publishers, each may raise in its handler, be stopped at the head of its
loop or crash anywhere.

What a worker has handled is at all times a prefix of the stream, whatever the others do: nothing is
shared out. The cursor is on the message in hand before its handler has run, and a worker that has ended
is never heard of again, so that nobody handles the message in its place.
-/

namespace CompetingConsumers.Bare
open PyText PyDict RedisStream ActionRun

inductive Pc where
  | top
  | handler (id : ℕ) (task : Task) (rest : List (ℕ × Fields))
  | sleep
  | returned
  | raised (e : PyExc)
  | crashed

structure Worker where
  consumerId : String
  count : ℕ := 10
  lastId : ℕ := 0
  handled : ℕ := 0
  pc : Pc := .top

namespace Worker

/-- The `for` loop at its next message: the cursor moves before the task is decoded. -/
def forBatch (k : Worker) : List (ℕ × Fields) → Worker
  | [] => { k with pc := .sleep }
  | (id, fields) :: rest =>
      let k := { k with lastId := id }
      match Task.fromFields fields with
      | .ok task => { k with pc := .handler id task rest }
      | .error e => { k with pc := .raised e }

def ended (k : Worker) : Bool :=
  match k.pc with
  | .returned => true
  | .raised _ => true
  | .crashed => true
  | _ => false

end Worker

/-- The stream, the runs by number and the handlings that have completed. -/
structure World where
  entries : List Fields := []
  workers : ℕ → Option Worker := fun _ => none
  trace : List Handling := []

inductive Action
  | xadd (fields : Fields)
  | start (i : ℕ) (consumerId : String) (count : ℕ)
  | read (i : ℕ)
  | handler (i : ℕ) (failure : Option PyExc)
  | wake (i : ℕ)
  | stop (i : ℕ)
  | crash (i : ℕ)

namespace World

def setWorker (w : World) (i : ℕ) (k : Worker) : World :=
  { w with workers := Function.update w.workers i (some k) }

theorem setWorker_self (w : World) (i : ℕ) (k : Worker) :
    (w.setWorker i k).workers i = some k := by
  simp [setWorker]

theorem setWorker_of_ne (w : World) {i j : ℕ} (h : j ≠ i) (k : Worker) :
    (w.setWorker i k).workers j = w.workers j := by
  simp [setWorker, h]

def step (w : World) : Action → Option World
  | .xadd fields => some { w with entries := w.entries ++ [fields] }
  | .start i consumerId count =>
      match w.workers i with
      | none => some (w.setWorker i { consumerId, count })
      | some _ => none
  | .read i =>
      match w.workers i with
      | some k =>
          match k.pc with
          | .top => some (w.setWorker i (k.forBatch (xread w.entries k.lastId k.count)))
          | _ => none
      | none => none
  | .handler i failure =>
      match w.workers i with
      | some k =>
          match k.pc, failure with
          | .handler id task rest, none =>
              some { (w.setWorker i ({ k with handled := k.handled + 1 }.forBatch rest)) with
                trace := w.trace ++ [⟨i, id, task⟩] }
          | .handler _ _ _, some exc => some (w.setWorker i { k with pc := .raised exc })
          | _, _ => none
      | none => none
  | .wake i =>
      match w.workers i with
      | some k =>
          match k.pc with
          | .sleep => some (w.setWorker i { k with pc := .top })
          | _ => none
      | none => none
  | .stop i =>
      match w.workers i with
      | some k =>
          match k.pc with
          | .top => some (w.setWorker i { k with pc := .returned })
          | _ => none
      | none => none
  | .crash i =>
      match w.workers i with
      | some k => if k.ended then none else some (w.setWorker i { k with pc := .crashed })
      | none => none

end World

/-- The handlings of a run that goes through the entries from the first. -/
def handlings (i : ℕ) (entries : List Fields) : List Handling :=
  (numberFrom 1 entries).filterMap fun e =>
    (Task.fromFields e.2).toOption.map fun task => ⟨i, e.1, task⟩

/-- All that one step of a worker can do, to itself and to the trace. -/
inductive Move (entries : List Fields) (i : ℕ) (k : Worker) : Worker → List Handling → Prop where
  | read (hpc : k.pc = .top) :
      Move entries i k (k.forBatch (xread entries k.lastId k.count)) []
  | handles (id : ℕ) (task : Task) (rest : List (ℕ × Fields)) (hpc : k.pc = .handler id task rest) :
      Move entries i k ({ k with handled := k.handled + 1 }.forBatch rest) [⟨i, id, task⟩]
  | fails (e : PyExc) (hend : k.ended = false) : Move entries i k { k with pc := .raised e } []
  | wake (hpc : k.pc = .sleep) : Move entries i k { k with pc := .top } []
  | stop (hpc : k.pc = .top) : Move entries i k { k with pc := .returned } []
  | crash (hend : k.ended = false) : Move entries i k { k with pc := .crashed } []

namespace World

theorem step_cases {w w' : World} {a : Action} (h : step w a = some w') :
    (∃ f, a = .xadd f ∧ w' = { w with entries := w.entries ++ [f] }) ∨
      (∃ i consumerId count, w.workers i = none ∧ w' = w.setWorker i { consumerId, count }) ∨
      ∃ i k k' hs, w.workers i = some k ∧ Move w.entries i k k' hs ∧
        w' = { (w.setWorker i k') with trace := w.trace ++ hs } := by
  cases a with
  | xadd f =>
    cases h
    exact Or.inl ⟨f, rfl, rfl⟩
  | start i consumerId count =>
    cases hk : w.workers i with
    | none =>
      simp only [step, hk, Option.some.injEq] at h
      exact Or.inr (Or.inl ⟨i, consumerId, count, hk, h.symm⟩)
    | some k => simp [step, hk] at h
  | read i =>
    cases hk : w.workers i with
    | none => simp [step, hk] at h
    | some k =>
      simp only [step, hk] at h
      split at h
      · rename_i hpc
        cases h
        exact Or.inr (Or.inr ⟨i, k, _, [], hk, .read hpc, by rw [List.append_nil]; rfl⟩)
      · cases h
  | handler i failure =>
    cases hk : w.workers i with
    | none => simp [step, hk] at h
    | some k =>
      simp only [step, hk] at h
      split at h
      · rename_i id task rest hpc
        cases h
        exact Or.inr (Or.inr ⟨i, k, _, _, hk, .handles id task rest hpc, rfl⟩)
      · rename_i exc hpc
        cases h
        exact Or.inr (Or.inr ⟨i, k, _, [], hk, .fails exc (by simp [Worker.ended, hpc]),
          by rw [List.append_nil]; rfl⟩)
      · cases h
  | wake i =>
    cases hk : w.workers i with
    | none => simp [step, hk] at h
    | some k =>
      simp only [step, hk] at h
      split at h
      · rename_i hpc
        cases h
        exact Or.inr (Or.inr ⟨i, k, _, [], hk, .wake hpc, by rw [List.append_nil]; rfl⟩)
      · cases h
  | stop i =>
    cases hk : w.workers i with
    | none => simp [step, hk] at h
    | some k =>
      simp only [step, hk] at h
      split at h
      · rename_i hpc
        cases h
        exact Or.inr (Or.inr ⟨i, k, _, [], hk, .stop hpc, by rw [List.append_nil]; rfl⟩)
      · cases h
  | crash i =>
    cases hk : w.workers i with
    | none => simp [step, hk] at h
    | some k =>
      simp only [step, hk] at h
      split_ifs at h with hend
      cases h
      exact Or.inr (Or.inr ⟨i, k, _, [], hk, .crash (by simpa using hend),
        by rw [List.append_nil]; rfl⟩)

end World

/-- Where the worker stands in the stream. -/
def Worker.Place (k : Worker) (entries : List Fields) : Prop :=
  match k.pc with
  | .handler id task rest =>
      id = k.handled + 1 ∧ k.lastId = id ∧
        (∃ f, entries[k.handled]? = some f ∧ Task.fromFields f = .ok task) ∧
        IsPage entries k.lastId rest
  | .raised _ | .crashed => True
  | _ => k.lastId = k.handled

theorem Worker.place_forBatch {k : Worker} {entries : List Fields} {page : List (ℕ × Fields)}
    (hlast : k.lastId = k.handled) (hpage : IsPage entries k.lastId page) :
    (k.forBatch page).Place entries := by
  cases page with
  | nil => exact hlast
  | cons e rest =>
    obtain ⟨id, f⟩ := e
    obtain ⟨rfl, hget, hrest⟩ := hpage.head
    cases hf : Task.fromFields f with
    | error e =>
      simp only [forBatch, hf, Place]
    | ok task =>
      simp only [forBatch, hf, Place]
      exact ⟨by rw [hlast], trivial, ⟨f, hlast ▸ hget, hf⟩, hrest⟩

theorem Worker.forBatch_handled (k : Worker) (page : List (ℕ × Fields)) :
    (k.forBatch page).handled = k.handled ∧ (k.forBatch page).count = k.count := by
  cases page with
  | nil => exact ⟨rfl, rfl⟩
  | cons e rest =>
    simp only [forBatch]
    split <;> exact ⟨rfl, rfl⟩

theorem handlings_append_singleton (i : ℕ) (l : List Fields) {f : Fields} {task : Task}
    (h : Task.fromFields f = .ok task) :
    handlings i (l ++ [f]) = handlings i l ++ [⟨i, l.length + 1, task⟩] := by
  rw [handlings, numberFrom_append, List.filterMap_append, Nat.add_comm]
  simp [numberFrom, h, Except.toOption, handlings]

/-- What a worker has handled is the part of the stream up to its count. -/
structure WorkerInv (w : World) (i : ℕ) (k : Worker) : Prop where
  le : k.handled ≤ w.entries.length
  trace : w.trace.filter (fun h => h.run = i) = handlings i (w.entries.take k.handled)
  length : (handlings i (w.entries.take k.handled)).length = k.handled
  place : k.Place w.entries

structure BareInv (w : World) : Prop where
  workers : ∀ i k, w.workers i = some k → WorkerInv w i k
  unstarted : ∀ i, w.workers i = none → w.trace.filter (fun h => h.run = i) = []

theorem WorkerInv.xadd {w : World} {i : ℕ} {k : Worker} (h : WorkerInv w i k) (f : Fields) :
    WorkerInv { w with entries := w.entries ++ [f] } i k := by
  have htake : (w.entries ++ [f]).take k.handled = w.entries.take k.handled :=
    List.take_append_of_le_length h.le
  refine ⟨?_, ?_, ?_, ?_⟩
  · rw [List.length_append]
    exact Nat.le_add_right_of_le h.le
  · rw [htake]
    exact h.trace
  · rw [htake]
    exact h.length
  · have hp := h.place
    unfold Worker.Place at hp ⊢
    split at hp
    · rename_i id task rest hpc
      obtain ⟨rfl, hlast, ⟨g, hg, hgt⟩, hpage⟩ := hp
      have hlt := (List.getElem?_eq_some_iff.mp hg).1
      refine ⟨rfl, hlast, ⟨g, ?_, hgt⟩, hpage.append (by omega) [f]⟩
      rw [List.getElem?_append_left hlt]
      exact hg
    · trivial
    · trivial
    · exact hp

theorem WorkerInv.move {w : World} {i : ℕ} {k k' : Worker} {hs : List Handling}
    (h : WorkerInv w i k) (hm : Move w.entries i k k' hs) :
    WorkerInv { (w.setWorker i k') with trace := w.trace ++ hs } i k' ∧ ∀ e ∈ hs, e.run = i := by
  have hsame {l : Worker} (hl : l.handled = k.handled) (hp : l.Place w.entries) :
      WorkerInv { (w.setWorker i l) with trace := w.trace ++ [] } i l := by
    refine ⟨?_, ?_, ?_, hp⟩
    · rw [hl]
      exact h.le
    · rw [hl, List.append_nil]
      exact h.trace
    · rw [hl]
      exact h.length
  have hplace := h.place
  cases hm with
  | read hpc =>
    simp only [Worker.Place, hpc] at hplace
    exact ⟨hsame (k.forBatch_handled _).1 (Worker.place_forBatch hplace (isPage_xread ..)), by simp⟩
  | handles id task rest hpc =>
    simp only [Worker.Place, hpc] at hplace
    obtain ⟨rfl, hlast, ⟨f, hf, htask⟩, hpage⟩ := hplace
    have hlt := (List.getElem?_eq_some_iff.mp hf).1
    have hhandled := ({ k with handled := k.handled + 1 }.forBatch_handled rest).1
    have htake : w.entries.take (k.handled + 1) = w.entries.take k.handled ++ [f] := by
      rw [List.take_add_one, hf]
      rfl
    have hlen : (w.entries.take k.handled).length = k.handled := by
      rw [List.length_take]
      omega
    have hnew : handlings i (w.entries.take (k.handled + 1)) =
        handlings i (w.entries.take k.handled) ++ [⟨i, k.handled + 1, task⟩] := by
      rw [htake, handlings_append_singleton i _ htask, hlen]
    refine ⟨⟨?_, ?_, ?_, Worker.place_forBatch hlast hpage⟩, by simp⟩
    · rw [hhandled]
      exact hlt
    · rw [hhandled]
      change (w.trace ++ [_]).filter _ = handlings i (w.entries.take (k.handled + 1))
      rw [hnew, List.filter_append, h.trace]
      simp
    · rw [hhandled]
      change (handlings i (w.entries.take (k.handled + 1))).length = k.handled + 1
      rw [hnew, List.length_append, h.length]
      rfl
  | fails e hend => exact ⟨hsame rfl trivial, by simp⟩
  | wake hpc =>
    simp only [Worker.Place, hpc] at hplace
    exact ⟨hsame rfl hplace, by simp⟩
  | stop hpc =>
    simp only [Worker.Place, hpc] at hplace
    exact ⟨hsame rfl hplace, by simp⟩
  | crash hend => exact ⟨hsame rfl trivial, by simp⟩

theorem bareInv_step (w : World) (a : Action) (w' : World) (h : BareInv w)
    (hw : World.step w a = some w') : BareInv w' := by
  obtain ⟨f, -, rfl⟩ | ⟨i, consumerId, count, hnone, rfl⟩ | ⟨i, k, k', hs, hk, hm, rfl⟩ :=
    World.step_cases hw
  · exact ⟨fun i k hk => (h.workers i k hk).xadd f, h.unstarted⟩
  · refine ⟨fun j l hl => ?_, fun j hj => ?_⟩
    · by_cases hji : j = i
      · subst hji
        obtain rfl := Option.some.inj ((w.setWorker_self j _).symm.trans hl)
        exact ⟨Nat.zero_le _, h.unstarted j hnone, rfl, rfl⟩
      · have := h.workers j l ((w.setWorker_of_ne hji _).symm.trans hl)
        exact ⟨this.le, this.trace, this.length, this.place⟩
    · by_cases hji : j = i
      · subst hji
        cases (w.setWorker_self j _).symm.trans hj
      · exact h.unstarted j ((w.setWorker_of_ne hji _).symm.trans hj)
  · obtain ⟨hself, hrun⟩ := (h.workers i k hk).move hm
    have hother {j : ℕ} (hji : j ≠ i) : (w.trace ++ hs).filter (fun h => h.run = j) =
        w.trace.filter fun h => h.run = j := by
      have hnil : hs.filter (fun h => h.run = j) = [] := by
        rw [List.filter_eq_nil_iff]
        intro e he
        simpa [hrun e he] using Ne.symm hji
      rw [List.filter_append, hnil, List.append_nil]
    refine ⟨fun j l hl => ?_, fun j hj => ?_⟩
    · by_cases hji : j = i
      · subst hji
        obtain rfl := Option.some.inj ((w.setWorker_self j k').symm.trans hl)
        exact hself
      · have := h.workers j l ((w.setWorker_of_ne hji k').symm.trans hl)
        exact ⟨this.le, (hother hji).trans this.trace, this.length, this.place⟩
    · by_cases hji : j = i
      · subst hji
        cases (w.setWorker_self j k').symm.trans hj
      · exact (hother hji).trans (h.unstarted j ((w.setWorker_of_ne hji k').symm.trans hj))

theorem bareInv_init : BareInv {} := ⟨fun i k hk => (by cases hk), fun i _ => rfl⟩

theorem ended_step {i : ℕ} {k : Worker} (hend : k.ended = true) (w : World) (a : Action) (w' : World)
    (hk : w.workers i = some k) (hw : World.step w a = some w') : w'.workers i = some k := by
  obtain ⟨f, -, rfl⟩ | ⟨j, consumerId, count, hnone, rfl⟩ | ⟨j, l, l', hs, hl, hm, rfl⟩ :=
    World.step_cases hw
  · exact hk
  · have hij : i ≠ j := by
      rintro rfl
      cases hnone.symm.trans hk
    exact (w.setWorker_of_ne hij _).trans hk
  · have hij : i ≠ j := by
      rintro rfl
      obtain rfl := Option.some.inj (hk.symm.trans hl)
      cases hm <;> simp_all [Worker.ended]
    exact (w.setWorker_of_ne hij l').trans hk

theorem Worker.forBatch_live {k : Worker} {entries : List Fields} {page : List (ℕ × Fields)}
    (hpage : IsPage entries k.lastId page)
    (hdec : ∀ f ∈ entries, ∃ task, Task.fromFields f = .ok task) :
    (k.forBatch page).ended = false ∧
      (page ≠ [] → ∃ id task rest, (k.forBatch page).pc = .handler id task rest) := by
  cases page with
  | nil => exact ⟨rfl, fun h => absurd rfl h⟩
  | cons e rest =>
    obtain ⟨id, f⟩ := e
    obtain ⟨rfl, hget, -⟩ := hpage.head
    obtain ⟨task, htask⟩ := hdec f (List.mem_of_getElem? hget)
    simp only [forBatch, htask, ended]
    exact ⟨trivial, fun _ => ⟨_, task, rest, rfl⟩⟩

namespace World

/-- What worker `i` does next when its handler always returns. -/
def solo (i : ℕ) (w : World) : Action :=
  match (w.workers i).map (·.pc) with
  | some (Pc.handler _ _ _) => .handler i none
  | some Pc.sleep => .wake i
  | _ => .read i

/-- A worker at work on entries that decode, with some of them left. -/
structure Busy (i : ℕ) (all : List Fields) (w : World) (k : Worker) : Prop where
  inv : BareInv w
  self : w.workers i = some k
  entries : w.entries = all
  ended : k.ended = false
  count : 1 ≤ k.count
  decodes : ∀ f ∈ all, ∃ task, Task.fromFields f = .ok task

def rank (k : Worker) : ℕ :=
  match k.pc with
  | .sleep => 2
  | .top => 1
  | _ => 0

theorem rank_le (k : Worker) : rank k ≤ 2 := by
  unfold rank
  split <;> omega

/-- What is left to handle, and how far the next handling is. -/
def left (entries : List Fields) (k : Worker) : ℕ := 3 * (entries.length - k.handled) + rank k

theorem Busy.step_solo {i : ℕ} {entries : List Fields} {w : World} {k : Worker}
    (h : Busy i entries w k) (hlt : k.handled < entries.length) :
    ∃ w' k', step w (solo i w) = some w' ∧ Busy i entries w' k' ∧
      left entries k' < left entries k := by
  obtain ⟨hinv, hk, rfl, hend, hcount, hdec⟩ := h
  have hplace := (hinv.workers i k hk).place
  have hnext (k' : Worker) (hs : List Handling) (a : Action) (ha : solo i w = a)
      (hstep : step w a = some { (w.setWorker i k') with trace := w.trace ++ hs })
      (hend' : k'.ended = false) (hcount' : k'.count = k.count)
      (hleft : left w.entries k' < left w.entries k) :
      ∃ w' k', step w (solo i w) = some w' ∧ Busy i w.entries w' k' ∧
        left w.entries k' < left w.entries k := by
    refine ⟨_, k', ha ▸ hstep, ⟨bareInv_step w a _ hinv hstep, w.setWorker_self i k', rfl, hend',
      hcount'.symm ▸ hcount, hdec⟩, hleft⟩
  unfold Worker.Place at hplace
  cases hpc : k.pc with
  | top =>
    simp only [hpc] at hplace
    have hpage := isPage_xread w.entries k.lastId k.count
    have hne : xread w.entries k.lastId k.count ≠ [] := by
      rw [← List.length_pos_iff_ne_nil, length_xread]
      omega
    obtain ⟨hlive, hbusy⟩ := Worker.forBatch_live hpage hdec
    obtain ⟨id, task, rest, hpc'⟩ := hbusy hne
    obtain ⟨hhandled, hcount'⟩ := k.forBatch_handled (xread w.entries k.lastId k.count)
    refine hnext _ [] (.read i) (by simp [solo, hk, hpc]) ?_ hlive hcount' ?_
    · simp only [step, hk, hpc, List.append_nil]
      rfl
    · have hk₁ : rank k = 1 := by simp only [rank, hpc]
      have hk₀ : rank (k.forBatch (xread w.entries k.lastId k.count)) = 0 := by simp only [rank, hpc']
      rw [left, left, hhandled, hk₁, hk₀]
      omega
  | handler id task rest =>
    simp only [hpc] at hplace
    obtain ⟨rfl, hlast, -, hpage⟩ := hplace
    obtain ⟨hlive, -⟩ := Worker.forBatch_live (k := { k with handled := k.handled + 1 }) hpage hdec
    obtain ⟨hhandled, hcount'⟩ := { k with handled := k.handled + 1 }.forBatch_handled rest
    refine hnext _ [⟨i, k.handled + 1, task⟩] (.handler i none) (by simp [solo, hk, hpc]) ?_ hlive
      hcount' ?_
    · simp only [step, hk]
      rw [hpc]
    · have hle := rank_le ({ k with handled := k.handled + 1 }.forBatch rest)
      rw [left, left, hhandled]
      change 3 * (w.entries.length - (k.handled + 1)) + _ < _
      omega
  | sleep =>
    refine hnext { k with pc := .top } [] (.wake i) (by simp [solo, hk, hpc]) ?_ rfl rfl ?_
    · simp only [step, hk, hpc, List.append_nil]
      rfl
    · have hk₂ : rank k = 2 := by simp only [rank, hpc]
      rw [left, left, hk₂]
      change 3 * (w.entries.length - k.handled) + 1 < _
      omega
  | returned => simp [Worker.ended, hpc] at hend
  | raised e => simp [Worker.ended, hpc] at hend
  | crashed => simp [Worker.ended, hpc] at hend

theorem Busy.reaches_end {i : ℕ} {entries : List Fields} {w : World} {k : Worker}
    (h : Busy i entries w k) : ∃ n w' k', drive step (solo i) n w = some w' ∧ Busy i entries w' k' ∧
      k'.handled = entries.length := by
  obtain ⟨m, hm⟩ : ∃ m, left entries k = m := ⟨_, rfl⟩
  induction m using Nat.strong_induction_on generalizing w k with
  | _ m ih =>
    by_cases hlt : k.handled < entries.length
    · obtain ⟨w₁, k₁, hstep, h₁, hless⟩ := h.step_solo hlt
      obtain ⟨n, w', k', hn, h', hall⟩ := ih _ (hm ▸ hless) h₁ rfl
      exact ⟨n + 1, w', k', by simp only [drive, hstep, Option.bind_some, hn], h', hall⟩
    · have hle := (h.inv.workers i k h.self).le
      rw [h.entries] at hle
      exact ⟨0, w, k, rfl, h, by omega⟩

/-- Whatever the other workers do, a worker handles the stream from its first entry in order, each entry
once; once it has ended it handles nothing more; and left running on entries that decode it handles all of
them, so that N workers handle every entry N times. -/
theorem bare_read_broadcasts (actions : List Action) (w : World) (hrun : run step {} actions = some w)
    (i : ℕ) (k : Worker) (hk : w.workers i = some k) :
    (k.handled ≤ w.entries.length ∧ (w.trace.filter fun h => h.run = i).length = k.handled ∧
      (w.trace.filter fun h => h.run = i) = handlings i (w.entries.take k.handled)) ∧
      (k.ended = true → ∀ more v, run step w more = some v →
        (v.trace.filter fun h => h.run = i) = w.trace.filter fun h => h.run = i) ∧
      (k.ended = false → 1 ≤ k.count → (∀ f ∈ w.entries, ∃ task, Task.fromFields f = .ok task) →
        ∃ n v, drive step (solo i) n w = some v ∧
          (v.trace.filter fun h => h.run = i) = handlings i w.entries) := by
  have hinv : BareInv w := run_invariant_of_step bareInv_step bareInv_init hrun
  have hi := hinv.workers i k hk
  refine ⟨⟨hi.le, by rw [hi.trace, hi.length], hi.trace⟩, fun hend more v hmore => ?_,
    fun hend hcount hdec => ?_⟩
  · have hstay : (BareInv v ∧ v.workers i = some k) ∧ w.entries <+: v.entries := by
      refine run_invariant_of_step (I := fun u => (BareInv u ∧ u.workers i = some k) ∧
        w.entries <+: u.entries) (fun u a u' hu hs => ⟨⟨bareInv_step u a u' hu.1.1 hs,
          ended_step hend u a u' hu.1.2 hs⟩, hu.2.trans ?_⟩) ⟨⟨hinv, hk⟩, List.prefix_rfl⟩ hmore
      obtain ⟨f, -, rfl⟩ | ⟨j, consumerId, count, hnone, rfl⟩ | ⟨j, l, l', hs, hl, hm, rfl⟩ :=
        step_cases hs
      · exact List.prefix_append _ _
      · exact List.prefix_rfl
      · exact List.prefix_rfl
    obtain ⟨⟨hv, hvk⟩, t, ht⟩ := hstay
    rw [(hv.workers i k hvk).trace, hi.trace, ← ht, List.take_append_of_le_length hi.le]
  · have hbusy : Busy i w.entries w k := ⟨hinv, hk, rfl, hend, hcount, hdec⟩
    obtain ⟨n, v, k', hn, h', hall⟩ := hbusy.reaches_end
    refine ⟨n, v, hn, ?_⟩
    rw [(h'.inv.workers i k' h'.self).trace, h'.entries, hall, List.take_length]

/-- Two workers and one task: the first worker has it in hand and crashes, the second handles it. -/
def crashedInHand : List Action :=
  [.xadd (encodeFields (Task.toFields ⟨"task-0", "work"⟩)), .start 0 "worker-0" 10, .start 1 "worker-1" 10,
    .read 0, .read 1, .crash 0]

theorem crashedInHand_lost :
    ∃ w k, run step {} crashedInHand = some w ∧ w.workers 0 = some k ∧ k.lastId = 1 ∧
      ∀ more v, run step w more = some v → (v.trace.filter fun h => h.run = 0) = [] :=
  ⟨_, _, rfl, rfl, rfl, (bare_read_broadcasts crashedInHand _ rfl 0 _ rfl).2.1 rfl⟩

end World

end CompetingConsumers.Bare
