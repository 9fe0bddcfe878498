import MessageBrokerPatterns.Monitor
import MessageBrokerPatterns.PyDict

/-!
# The metrics registry

`MetricsRegistry` keeps the counters of every pattern behind one lock. Each method is written access by
access as the source reads and writes the shared dictionary, and runs in any number of threads. The
readings of the clock are arguments of the calls.

The specification is about lists of calls: the first call to touch a pattern names it, a counter is the
sum of its increments, the last increment stamps it.
-/

namespace Metrics
open PyDict Monitor ActionRun

structure PatternMetrics where
  label : String
  counters : Dict String ℤ := []
  lastUpdated : String
  deriving DecidableEq

abbrev Registry := Dict String PatternMetrics

/-- One element of a snapshot. -/
structure Row where
  id : String
  label : String
  counters : Dict String ℤ
  lastUpdated : String
  deriving DecidableEq

inductive Call
  | register (patternId label created : String)
  | increment (patternId key : String) (amount : ℤ) (created updated : String)
  | snapshot
  deriving DecidableEq

inductive Result
  | entry (metrics : PatternMetrics)
  | done
  | rows (rows : List Row)
  deriving DecidableEq

/-- The registry after a write to the object under a key that is present. -/
def modify (r : Registry) (patternId : String) (f : PatternMetrics → PatternMetrics) : Registry :=
  match get? r patternId with
  | some metrics => assign r patternId (f metrics)
  | none => r

/-- `self._patterns[pattern_id].counters.get(key, 0)` -/
def counter (r : Registry) (patternId key : String) : ℤ :=
  ((get? r patternId).bind fun metrics => get? metrics.counters key).getD 0

def register (patternId label created : String) : Body Registry Result :=
  .access id fun r =>
    match get? r patternId with
    | some existing => .ret (.entry existing)
    | none =>
        let metrics := { label, lastUpdated := created }
        .access (assign · patternId metrics) fun _ => .ret (.entry metrics)

/-- The part of `increment` behind the lookup of the entry. -/
def bump (patternId key : String) (amount : ℤ) (updated : String) : Body Registry Result :=
  .access id fun r =>
    let value := counter r patternId key + amount
    .access (modify · patternId fun m => { m with counters := assign m.counters key value }) fun _ =>
      .access (modify · patternId fun m => { m with lastUpdated := updated }) fun _ => .ret .done

def increment (patternId key : String) (amount : ℤ) (created updated : String) :
    Body Registry Result :=
  .access id fun r =>
    match get? r patternId with
    | some _ => bump patternId key amount updated
    | none =>
        .access (assign · patternId { label := patternId, lastUpdated := created }) fun _ =>
          bump patternId key amount updated

/-- The list comprehension of `snapshot`, over the items behind those it has seen. -/
def rowsFrom : List String → List Row → Body Registry Result
  | [], rows => .ret (.rows rows)
  | patternId :: rest, rows =>
      .access id fun r =>
        match get? r patternId with
        | some m => rowsFrom rest (rows ++ [⟨patternId, m.label, m.counters, m.lastUpdated⟩])
        | none => rowsFrom rest rows

def snapshot : Body Registry Result := .access id fun r => rowsFrom (keys r) []

def body : Call → Body Registry Result
  | .register patternId label created => register patternId label created
  | .increment patternId key amount created updated =>
      increment patternId key amount created updated
  | .snapshot => snapshot

def Call.touches : Call → Option (String × String)
  | .register patternId label _ => some (patternId, label)
  | .increment patternId _ _ _ _ => some (patternId, patternId)
  | .snapshot => none

def Call.registered : Call → Option (String × String)
  | .register patternId _ created => some (patternId, created)
  | _ => none

def Call.updated : Call → Option (String × String)
  | .increment patternId _ _ _ updated => some (patternId, updated)
  | _ => none

def Call.amount (patternId key : String) : Call → ℤ
  | .increment p k amount _ _ => if p = patternId ∧ k = key then amount else 0
  | _ => 0

/-- The elements of a list in the order in which they first occur. -/
def firsts (l : List String) : List String :=
  l.foldl (fun acc x => if x ∈ acc then acc else acc ++ [x]) []

/-- The labels in the order in which patterns were touched: `get?` finds the first. -/
def labels (calls : List Call) : Dict String String := calls.filterMap Call.touches

def total (calls : List Call) (patternId key : String) : ℤ :=
  (calls.map (Call.amount patternId key)).sum

/-- The stamps from the last to the first increment, then those of the registrations. -/
def stamps (calls : List Call) : Dict String String :=
  (calls.filterMap Call.updated).reverse ++ calls.filterMap Call.registered

theorem get?_modify (r : Registry) (pid : String) (f : PatternMetrics → PatternMetrics) (q : String) :
    get? (modify r pid f) q = if pid = q then (get? r pid).map f else get? r q := by
  unfold modify
  cases hm : get? r pid with
  | some m => rw [get?_assign, Option.map_some]
  | none =>
    by_cases hq : pid = q
    · rw [if_pos hq, ← hq, hm]
      rfl
    · rw [if_neg hq]

theorem keys_modify (r : Registry) (pid : String) (f : PatternMetrics → PatternMetrics) :
    keys (modify r pid f) = keys r := by
  unfold modify
  cases hm : get? r pid with
  | some m =>
    refine keys_assign_of_mem ?_ _
    by_contra hnot
    rw [get?_eq_none.mpr hnot] at hm
    cases hm
  | none => rfl

def ensure (r : Registry) (patternId label created : String) : Registry :=
  match get? r patternId with
  | some _ => r
  | none => assign r patternId { label, lastUpdated := created }

theorem get?_ensure (r : Registry) (pid label created q : String) :
    get? (ensure r pid label created) q =
      (get? r q).or (if pid = q then some { label, lastUpdated := created } else none) := by
  unfold ensure
  cases hm : get? r pid with
  | some m =>
    by_cases hq : pid = q
    · rw [← hq, hm, Option.some_or]
    · rw [if_neg hq, Option.or_none]
  | none =>
    simp only [get?_assign]
    by_cases hq : pid = q
    · rw [if_pos hq, if_pos hq, ← hq, hm, Option.none_or]
    · rw [if_neg hq, if_neg hq, Option.or_none]

theorem keys_ensure (r : Registry) (pid label created : String) :
    keys (ensure r pid label created) = if pid ∈ keys r then keys r else keys r ++ [pid] := by
  unfold ensure
  cases hm : get? r pid with
  | some m =>
    have hmem : pid ∈ keys r := by
      by_contra hnot
      rw [get?_eq_none.mpr hnot] at hm
      cases hm
    rw [if_pos hmem]
  | none =>
    have hnot := get?_eq_none.mp hm
    rw [if_neg hnot]
    simp only [assign_of_notMem hnot]
    simp [keys]

theorem counter_ensure (r : Registry) (pid label created q key : String) :
    counter (ensure r pid label created) q key = counter r q key := by
  rw [counter, counter, get?_ensure]
  cases hq : get? r q with
  | some m => rfl
  | none =>
    rw [Option.none_or]
    split_ifs <;> rfl

theorem exec_register (pid label created : String) (r : Registry) :
    ((register pid label created).exec r).2 = ensure r pid label created := by
  simp only [register, Body.exec, ensure, id]
  split <;> rfl

theorem exec_increment (pid key : String) (amount : ℤ) (created updated : String) (r : Registry) :
    (increment pid key amount created updated).exec r =
      (.done, modify (modify (ensure r pid pid created) pid fun m =>
        { m with counters := assign m.counters key (counter r pid key + amount) }) pid fun m =>
          { m with lastUpdated := updated }) := by
  rw [← counter_ensure r pid pid created]
  simp only [increment, Body.exec, ensure, id]
  split <;> rfl

theorem exec_rowsFrom (pids : List String) (rows : List Row) (r : Registry) :
    (rowsFrom pids rows).exec r = (.rows (rows ++ pids.filterMap fun pid =>
      (get? r pid).map fun m => ⟨pid, m.label, m.counters, m.lastUpdated⟩), r) := by
  induction pids generalizing rows with
  | nil => simp [rowsFrom, Body.exec]
  | cons pid pids ih =>
    simp only [rowsFrom, Body.exec, id]
    cases hm : get? r pid with
    | some m =>
      simp only [ih, List.filterMap_cons, hm, Option.map_some, List.append_assoc,
        List.singleton_append]
    | none => simp only [ih, List.filterMap_cons, hm, Option.map_none]

theorem exec_snapshot (r : Registry) : snapshot.exec r = (.rows ((keys r).filterMap fun pid =>
    (get? r pid).map fun m => ⟨pid, m.label, m.counters, m.lastUpdated⟩), r) := by
  rw [snapshot, Body.exec, exec_rowsFrom, List.nil_append]
  rfl

theorem firsts_append_singleton (l : List String) (x : String) :
    firsts (l ++ [x]) = if x ∈ firsts l then firsts l else firsts l ++ [x] := by
  rw [firsts, List.foldl_append]
  rfl

/-- The registry is what the calls made of it. -/
structure Agrees (r : Registry) (calls : List Call) : Prop where
  keys : keys r = firsts ((labels calls).map Prod.fst)
  label : ∀ pid, (get? r pid).map (·.label) = get? (labels calls) pid
  count : ∀ pid key, counter r pid key = total calls pid key
  stamp : ∀ pid, (get? r pid).map (·.lastUpdated) = get? (stamps calls) pid

theorem agrees_empty : Agrees [] [] := ⟨rfl, fun _ => rfl, fun _ _ => rfl, fun _ => rfl⟩

theorem labels_append (calls : List Call) (c : Call) :
    labels (calls ++ [c]) = labels calls ++ c.touches.toList := by
  rw [labels, List.filterMap_append]
  cases c <;> rfl

theorem total_append (calls : List Call) (c : Call) (pid key : String) :
    total (calls ++ [c]) pid key = total calls pid key + c.amount pid key := by
  simp [total]

namespace Agrees
variable {r : Registry} {calls : List Call}

theorem keys_touched (h : Agrees r calls) {c : Call} {pid label : String}
    (hc : c.touches = some (pid, label)) (created : String) :
    PyDict.keys (ensure r pid label created) = firsts ((labels (calls ++ [c])).map Prod.fst) := by
  rw [keys_ensure, labels_append, hc, Option.toList_some, List.map_append, List.map_singleton,
    firsts_append_singleton, h.keys]

theorem label_touched (h : Agrees r calls) {c : Call} {pid label : String}
    (hc : c.touches = some (pid, label)) (created q : String) :
    (get? (ensure r pid label created) q).map (·.label) = get? (labels (calls ++ [c])) q := by
  rw [get?_ensure, labels_append, hc, Option.toList_some, get?_append, ← h.label, get?_cons]
  cases get? r q with
  | some m => rfl
  | none =>
    by_cases hq : pid = q <;> simp [hq]

theorem register (h : Agrees r calls) (pid label created : String) :
    Agrees (ensure r pid label created) (calls ++ [.register pid label created]) where
  keys := h.keys_touched rfl created
  label := h.label_touched rfl created
  count q key := by
    rw [counter_ensure, h.count, total_append]
    exact (add_zero _).symm
  stamp q := by
    have hstamps : stamps (calls ++ [.register pid label created]) =
        stamps calls ++ [(pid, created)] := by
      simp [stamps, Call.updated, Call.registered]
    rw [get?_ensure, hstamps, get?_append, ← h.stamp, get?_cons]
    cases get? r q with
    | some m => rfl
    | none =>
      by_cases hq : pid = q <;> simp [hq]

theorem increment (h : Agrees r calls) (pid key : String) (amount : ℤ) (created updated : String) :
    Agrees (modify (modify (ensure r pid pid created) pid fun m =>
      { m with counters := assign m.counters key (counter r pid key + amount) }) pid fun m =>
        { m with lastUpdated := updated }) (calls ++ [.increment pid key amount created updated]) := by
  have hget : ∃ m, get? (ensure r pid pid created) pid = some m := by
    rw [get?_ensure, if_pos rfl]
    cases get? r pid <;> exact ⟨_, rfl⟩
  obtain ⟨m, hm⟩ := hget
  constructor
  · rw [keys_modify, keys_modify]
    exact h.keys_touched rfl created
  · intro q
    rw [← h.label_touched rfl created, get?_modify, get?_modify, get?_modify, if_pos rfl, hm]
    by_cases hq : pid = q
    · rw [if_pos hq, ← hq, hm]
      rfl
    · rw [if_neg hq, if_neg hq]
  · intro q k
    have hold (q k : String) : counter r q k = counter (ensure r pid pid created) q k :=
      (counter_ensure r pid pid created q k).symm
    rw [total_append, ← h.count, hold pid key, hold q k]
    simp only [counter, get?_modify, hm]
    by_cases hq : pid = q
    · subst hq
      by_cases hk : key = k
      · subst hk
        simp [hm, get?_assign, Call.amount]
      · simp [hm, get?_assign, Call.amount, hk]
    · simp [Call.amount, hq]
  · intro q
    have hstamps : stamps (calls ++ [.increment pid key amount created updated]) =
        (pid, updated) :: stamps calls := by
      simp [stamps, Call.updated, Call.registered]
    rw [hstamps, get?_cons, get?_modify, get?_modify, get?_modify, if_pos rfl, hm, ← h.stamp]
    by_cases hq : pid = q
    · rw [if_pos hq, if_pos hq]
      rfl
    · rw [if_neg hq, if_neg hq, if_neg hq, get?_ensure, if_neg hq, Option.or_none]

theorem call (h : Agrees r calls) (c : Call) : Agrees ((body c).exec r).2 (calls ++ [c]) := by
  cases c with
  | register pid label created =>
    rw [body, exec_register]
    exact h.register pid label created
  | increment pid key amount created updated =>
    rw [body, exec_increment]
    exact h.increment pid key amount created updated
  | snapshot =>
    rw [body, exec_snapshot]
    refine ⟨?_, fun pid => ?_, fun pid key => ?_, fun pid => ?_⟩
    · rw [labels_append]
      simpa [Call.touches] using h.keys
    · rw [labels_append]
      simpa [Call.touches] using h.label pid
    · rw [total_append, h.count]
      exact (add_zero _).symm
    · have hstamps : stamps (calls ++ [.snapshot]) = stamps calls := by
        rw [stamps, List.filterMap_append, List.filterMap_append]
        change (calls.filterMap Call.updated ++ []).reverse ++
          (calls.filterMap Call.registered ++ []) = stamps calls
        rw [List.append_nil, List.append_nil, stamps]
      rw [hstamps]
      exact h.stamp pid

end Agrees

theorem agrees_after (calls : List Call) : Agrees (after body [] calls) calls := by
  induction calls using List.reverseRecOn with
  | nil => exact agrees_empty
  | append_singleton calls c ih =>
    rw [after_append]
    exact ih.call c

/-- However the threads interleave, when all of them are done every counter is the sum of the
increments in their programs. -/
theorem no_increment_lost (n : ℕ) (programs : ℕ → List Call) (hidle : ∀ t, n ≤ t → programs t = [])
    (actions : List Action) (w : World Registry Call Result)
    (hrun : run (step body) (start [] programs) actions = some w) (hdone : ∀ t, w.Done t)
    (patternId key : String) :
    counter w.shared patternId key = ∑ t ∈ Finset.range n, total (programs t) patternId key := by
  have h := monitorInv_of_run hrun
  rw [h.shared_done hdone, (agrees_after _).count]
  exact h.sum_done (Call.amount patternId key) hidle hdone

/-- A snapshot shows the registry between two calls: of a series of calls that keeps to the order of
every thread, the patterns in the order in which they were first touched, each with the label of its
first call, the sums of its increments and the stamp of the last. -/
theorem snapshots_are_cuts (programs : ℕ → List Call) (actions : List Action)
    (w : World Registry Call Result) (hrun : run (step body) (start [] programs) actions = some w)
    (before rest : List (ℕ × Call × Result)) (t : ℕ) (r : Result)
    (hshot : w.history = before ++ (t, .snapshot, r) :: rest) :
    (∀ u, Monitor.calls (before.filter fun e => e.1 = u) <+: programs u) ∧
      ∃ rows, r = .rows rows ∧
        rows.map Row.id = firsts ((labels (Monitor.calls before)).map Prod.fst) ∧
        ∀ row ∈ rows, get? (labels (Monitor.calls before)) row.id = some row.label ∧
          (∀ key, (get? row.counters key).getD 0 = total (Monitor.calls before) row.id key) ∧
          get? (stamps (Monitor.calls before)) row.id = some row.lastUpdated := by
  have h := monitorInv_of_run hrun
  have hagrees := agrees_after (Monitor.calls before)
  have hr := h.serial before t .snapshot r rest hshot
  rw [body, exec_snapshot] at hr
  refine ⟨fun u => ?_, _, hr.symm, ?_, fun row hrow => ?_⟩
  · rw [← h.programs u, World.program, hshot, List.filter_append, calls_append, List.append_assoc,
      List.append_assoc]
    exact List.prefix_append _ _
  · rw [← hagrees.keys, List.map_filterMap]
    refine (List.filterMap_congr fun pid hpid => ?_).trans (List.filterMap_some)
    cases hm : get? (after body [] (Monitor.calls before)) pid with
    | some m => rfl
    | none => exact absurd hpid (get?_eq_none.mp hm)
  · obtain ⟨pid, -, hpid⟩ := List.mem_filterMap.mp hrow
    obtain ⟨m, hm, rfl⟩ := Option.map_eq_some_iff.mp hpid
    refine ⟨?_, fun key => ?_, ?_⟩
    · rw [← hagrees.label, hm]
      rfl
    · rw [← hagrees.count, counter, hm]
      rfl
    · rw [← hagrees.stamp, hm]
      rfl

/-- Two threads count the same outcome, and the second of them takes a snapshot. -/
def twoConsumers : ℕ → List Call
  | 0 => [.increment "dlq" "moved_to_dlq" 1 "10:00" "10:01"]
  | 1 => [.increment "dlq" "moved_to_dlq" 1 "10:02" "10:03", .snapshot]
  | _ => []

def contended : List Action :=
  [.acquire 0, .access 0, .access 0, .access 0, .access 0, .access 0, .release 0,
    .acquire 1, .access 1, .access 1, .access 1, .access 1, .release 1,
    .acquire 1, .access 1, .access 1, .release 1]

theorem contended_counts :
    ∃ w, run (step body) (start [] twoConsumers) contended = some w ∧
      counter w.shared "dlq" "moved_to_dlq" = 2 := by
  refine ⟨_, rfl, ?_⟩
  refine (no_increment_lost 2 twoConsumers ?_ contended _ rfl ?_ "dlq" "moved_to_dlq").trans ?_
  · rintro (_ | _ | t) ht
    · omega
    · omega
    · rfl
  · rintro (_ | _ | t)
    · exact ⟨rfl, rfl⟩
    · exact ⟨rfl, rfl⟩
    · exact ⟨rfl, rfl⟩
  · decide

theorem contended_snapshot :
    ∃ w before r, run (step body) (start [] twoConsumers) contended = some w ∧
      w.history = before ++ [(1, .snapshot, r)] ∧ ∃ rows, r = .rows rows ∧
        rows.map Row.id = firsts ((labels (Monitor.calls before)).map Prod.fst) := by
  refine ⟨_, [_, _], _, rfl, rfl, ?_⟩
  obtain ⟨-, rows, hrows, hids, -⟩ :=
    snapshots_are_cuts twoConsumers contended _ rfl [_, _] [] 1 _ rfl
  exact ⟨rows, hrows, hids⟩

end Metrics
