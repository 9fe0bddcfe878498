import MessageBrokerPatterns.PriorityBroker
import MessageBrokerPatterns.DlqBroker
import MessageBrokerPatterns.RedisKeys
import MessageBrokerPatterns.Mealy

/-!
# Consumer groups on a shared server

The three brokers on consumer groups create a group with the same `ensure_group`: `XGROUP CREATE` at
id `0`, with the server's `BUSYGROUP` swallowed. `ensure_all_groups` runs it over the streams of a
pattern and stops at the first one that raises.

`call` are the methods of the three brokers on a server with any keys and any groups. To the callers
of one stream and one group the server is a `GroupStream`, a single stream with a single group that
has been there from the start: other streams, other groups and the moment at which the group was
created do not show.
-/

namespace StreamBroker
open PyText PyDict RedisStream

abbrev Redis := Keyspace Fields

def ensureGroup (redis : Redis) (stream group : String) : Except PyExc Bool × Redis :=
  match redis.execute (.xgroupCreate stream group) with
  | (.ok _, redis) => (.ok true, redis)
  | (.error exc, redis) =>
      if pyIn "BUSYGROUP" exc.message then (.ok false, redis) else (.error exc, redis)

/-- `for stream in streams: await self.ensure_group(stream, group)` -/
def ensureEach (group : String) : List String → Redis → Except PyExc Unit × Redis
  | [], redis => (.ok (), redis)
  | stream :: streams, redis =>
      match ensureGroup redis stream group with
      | (.ok _, redis) => ensureEach group streams redis
      | (.error exc, redis) => (.error exc, redis)

theorem busyGroup_swallowed : pyIn "BUSYGROUP" busyGroup.message = true := by decide +kernel

theorem wrongType_raised : pyIn "BUSYGROUP" wrongType.message = false := by decide +kernel

variable {redis : Redis} {stream group : String} {k : StreamKey Fields}

theorem ensureGroup_other (h : redis stream = .other) :
    ensureGroup redis stream group = (.error wrongType, redis) := by
  have he : redis.execute (.xgroupCreate stream group) = (.error wrongType, redis) :=
    Keyspace.execute_other h
  simp only [ensureGroup, he, wrongType_raised, Bool.false_eq_true, if_false]

theorem ensureGroup_busy (h : redis stream = .stream k) (hg : (k.groups group).isSome) :
    ensureGroup redis stream group = (.ok false, redis) := by
  simp only [ensureGroup, Keyspace.execute_busy h hg, busyGroup_swallowed, if_true]

theorem ensureGroup_create (h : redis stream = .stream k) (hg : k.groups group = none) :
    ensureGroup redis stream group =
      (.ok true, Function.update redis stream (.stream (k.create group))) := by
  simp only [ensureGroup, Keyspace.execute_create h hg]

theorem ensureGroup_of_ne {st : String} (h : stream ≠ st) (group : String) :
    (ensureGroup redis st group).2 stream = redis stream := by
  have he : (redis.execute (.xgroupCreate st group)).2 stream = redis stream :=
    Keyspace.execute_of_ne h
  rw [← he]
  unfold ensureGroup
  split
  · rename_i reply redis' hr
    rw [hr]
  · rename_i exc redis' hr
    rw [hr]
    split_ifs
    · rfl
    · rfl

/-- What `ensure_group` leaves behind on a stream. -/
theorem ensureGroup_stream (h : redis stream = .stream k) (group : String) :
    ∃ k', ensureGroup redis stream group =
        (.ok (k.groups group).isNone, Function.update redis stream (.stream k')) ∧
      (k'.groups group).isSome ∧ (∀ g, g ≠ group → k'.groups g = k.groups g) ∧
      ∀ g, k'.view g = k.view g := by
  cases hg : k.groups group with
  | none =>
    refine ⟨k.create group, ensureGroup_create h hg, ?_, ?_, StreamKey.view_create hg⟩
    · simp [StreamKey.create, StreamKey.setGroup]
    · intro g hne
      exact Function.update_of_ne hne _ _
  | some s =>
    refine ⟨k, ?_, ?_, fun _ _ => rfl, fun _ => rfl⟩
    · rw [ensureGroup_busy h (by rw [hg]; rfl), ← h, Function.update_eq_self]
      rfl
    · rw [hg]
      rfl

/-- A call of one of the brokers: `publish`, `ensure_group`, or a method that sends one command to a
group and hands on the reply. -/
inductive Call
  | publish (stream : String) (fields : Dict String String)
  | ensureGroup (stream group : String)
  | onGroup (stream group : String) (c : GroupCommand)

namespace Call
variable (stream group consumer : String)

def readNew (now count : ℕ) : Call := .onGroup stream group (.readNew consumer now count)

def readPending (now count : ℕ) : Call := .onGroup stream group (.readPending consumer now count)

def reclaimStale (now minIdleMs count : ℕ) : Call :=
  .onGroup stream group (.autoclaim consumer now minIdleMs count)

def ack (id : ℕ) : Call := .onGroup stream group (.ack id)

def pendingCount : Call := .onGroup stream group .pending

end Call

inductive Answer
  | flag (b : Bool)
  | reply (r : Reply Fields)
  | raised (exc : PyExc)
  deriving DecidableEq

def Answer.ofReply : Except PyExc (Reply Fields) → Answer
  | .ok r => .reply r
  | .error exc => .raised exc

def Answer.ofFlag : Except PyExc Bool → Answer
  | .ok b => .flag b
  | .error exc => .raised exc

def call (redis : Redis) : Call → Answer × Redis
  | .publish stream fields =>
      (redis.execute (.xadd stream (encodeFields fields))).map .ofReply id
  | .ensureGroup stream group => (ensureGroup redis stream group).map .ofFlag id
  | .onGroup stream group c => (redis.execute (.onGroup stream group c)).map .ofReply id

/-- A call as the users of one stream and one group make it. -/
inductive OwnCall
  | publish (fields : Dict String String)
  | onGroup (c : GroupCommand)

def Call.own? (stream group : String) : Call → Option OwnCall
  | .publish st fields => if st = stream then some (.publish fields) else none
  | .ensureGroup _ _ => none
  | .onGroup st g c => if st = stream ∧ g = group then some (.onGroup c) else none

def serveAlone (s : GroupStream Fields String ℕ) :
    OwnCall → Answer × GroupStream Fields String ℕ
  | .publish fields =>
      (.reply (.added (s.entries.length + 1)), s.xadd (encodeFields fields))
  | .onGroup c => (.reply (s.serve c).1, (s.serve c).2)

/-- No call uses the group before one has ensured it. -/
def JoinsFirst (stream group : String) : List Call → Prop
  | [] => True
  | .ensureGroup st g :: calls => (st = stream ∧ g = group) ∨ JoinsFirst stream group calls
  | .onGroup st g _ :: calls => ¬ (st = stream ∧ g = group) ∧ JoinsFirst stream group calls
  | .publish _ _ :: calls => JoinsFirst stream group calls

theorem call_of_ne {redis : Redis} {stream st : String} (h : stream ≠ st) :
    (∀ fields, (call redis (.publish st fields)).2 stream = redis stream) ∧
    (∀ g, (call redis (.ensureGroup st g)).2 stream = redis stream) ∧
    ∀ g c, (call redis (.onGroup st g c)).2 stream = redis stream := by
  refine ⟨fun fields => ?_, fun g => ?_, fun g c => ?_⟩
  · exact Keyspace.execute_of_ne h
  · exact ensureGroup_of_ne h g
  · exact Keyspace.execute_of_ne h

theorem call_onGroup {redis : Redis} {stream group : String} {k : StreamKey Fields}
    (h : redis stream = .stream k) (hg : (k.groups group).isSome) (c : GroupCommand) :
    ∃ k', call redis (.onGroup stream group c) =
        (.reply ((k.view group).serve c).1, Function.update redis stream (.stream k')) ∧
      k'.view group = ((k.view group).serve c).2 ∧ (k'.groups group).isSome ∧
      ∀ g, g ≠ group → k'.view g = k.view g ∧ k'.groups g = k.groups g := by
  obtain ⟨s, hs⟩ := Option.isSome_iff_exists.mp hg
  obtain ⟨k', hserve, hview, hsome, hother⟩ := StreamKey.serve_of_some hs c
  refine ⟨k', ?_, hview, hsome, hother⟩
  simp only [call, Keyspace.execute, Command.key, h, hserve]
  rfl

theorem call_onGroup_missing {redis : Redis} {stream group : String} {k : StreamKey Fields}
    (h : redis stream = .stream k) (hg : k.groups group = none) (c : GroupCommand) :
    (call redis (.onGroup stream group c)).2 = redis := by
  simp only [call, Keyspace.execute, Command.key, h, StreamKey.serve_of_none hg]
  rfl

/-- What the server and the lone stream agree on: the view of the group, which exists by the time it
is used. -/
def Shows (stream group : String) (redis : Redis) (s : GroupStream Fields String ℕ)
    (calls : List Call) : Prop :=
  ∃ k, redis stream = .stream k ∧ k.view group = s ∧
    ((k.groups group).isSome ∨ JoinsFirst stream group calls)

theorem Shows.frame {stream group : String} {redis redis' : Redis}
    {s : GroupStream Fields String ℕ} {c : Call} {calls : List Call}
    (h : Shows stream group redis s (c :: calls)) (hr : redis' stream = redis stream)
    (hj : JoinsFirst stream group (c :: calls) → JoinsFirst stream group calls) :
    Shows stream group redis' s calls := by
  obtain ⟨k, hk, hview, hjoin⟩ := h
  exact ⟨k, hr.trans hk, hview, hjoin.imp_right hj⟩

theorem shows_own {stream group : String} {redis : Redis} {s : GroupStream Fields String ℕ}
    {c : Call} {own : OwnCall} {calls : List Call} (hown : c.own? stream group = some own)
    (h : Shows stream group redis s (c :: calls)) :
    (call redis c).1 = (serveAlone s own).1 ∧
      Shows stream group (call redis c).2 (serveAlone s own).2 calls := by
  obtain ⟨k, hk, rfl, hjoin⟩ := h
  cases c with
  | publish st fields =>
    simp only [Call.own?] at hown
    split_ifs at hown with hst
    cases hown
    subst hst
    have hc : call redis (.publish st fields) =
        (.reply (.added (k.entries.length + 1)),
          Function.update redis st (.stream (k.xadd (encodeFields fields)))) := by
      simp only [call, Keyspace.execute_xadd hk]
      rfl
    rw [hc]
    refine ⟨by rw [serveAlone, k.entries_view], _, Function.update_self _ _ _, k.view_xadd _ _, ?_⟩
    refine hjoin.imp (fun hs => ?_) id
    simpa [StreamKey.xadd] using hs
  | ensureGroup st g => cases hown
  | onGroup st g c =>
    simp only [Call.own?] at hown
    split_ifs at hown with hst
    cases hown
    obtain ⟨rfl, rfl⟩ := hst
    have hs : (k.groups g).isSome := hjoin.resolve_right fun hj => hj.1 ⟨rfl, rfl⟩
    obtain ⟨k', hc, hview, hsome, -⟩ := call_onGroup hk hs c
    rw [hc]
    exact ⟨rfl, k', Function.update_self _ _ _, hview, Or.inl hsome⟩

theorem shows_other {stream group : String} {redis : Redis} {s : GroupStream Fields String ℕ}
    {c : Call} {calls : List Call} (hown : c.own? stream group = none)
    (h : Shows stream group redis s (c :: calls)) :
    Shows stream group (call redis c).2 s calls := by
  cases c with
  | publish st fields =>
    have hst : stream ≠ st := by
      rintro rfl
      simp [Call.own?] at hown
    exact h.frame ((call_of_ne hst).1 fields) id
  | ensureGroup st g =>
    by_cases hst : stream = st
    · subst hst
      obtain ⟨k, hk, rfl, hjoin⟩ := h
      obtain ⟨k', hc, hsome, hgroups, hview⟩ := ensureGroup_stream hk g
      have hr : (call redis (.ensureGroup stream g)).2 stream = .stream k' := by
        simp only [call, hc]
        exact Function.update_self _ _ _
      refine ⟨k', hr, hview group, ?_⟩
      by_cases hg : group = g
      · exact Or.inl (hg ▸ hsome)
      · rw [hgroups group hg]
        exact hjoin.imp_right fun hj => hj.resolve_left fun he => hg he.2.symm
    · refine h.frame ((call_of_ne hst).2.1 g) fun hj => hj.resolve_left fun he => hst he.1.symm
  | onGroup st g c =>
    by_cases hst : stream = st
    · subst hst
      have hg : group ≠ g := by
        rintro rfl
        simp [Call.own?] at hown
      obtain ⟨k, hk, rfl, hjoin⟩ := h
      cases hgs : k.groups g with
      | none =>
        rw [call_onGroup_missing hk hgs]
        exact ⟨k, hk, rfl, hjoin.imp_right And.right⟩
      | some t =>
        obtain ⟨k', hc, -, -, hother⟩ := call_onGroup hk (by rw [hgs]; rfl) c
        rw [hc]
        refine ⟨k', Function.update_self _ _ _, (hother group hg).1, ?_⟩
        rw [(hother group hg).2]
        exact hjoin.imp_right And.right
    · exact h.frame ((call_of_ne hst).2.2 g c) And.right

/-- To the callers of one stream and one group, who ensure the group before they use it, the server
answers as a stream with a single group that has been there since the first entry: whatever other
streams and groups are used, and however late the group is created. -/
theorem group_sees_lone_stream (stream group : String) (redis : Redis) (k : StreamKey Fields)
    (hstream : redis stream = .stream k) (hnew : k.groups group = none) (calls : List Call)
    (hjoin : JoinsFirst stream group calls) :
    Mealy.outputsTo (Call.own? stream group) call redis calls =
      Mealy.outputs serveAlone (.fresh k.entries) (calls.filterMap (Call.own? stream group)) := by
  apply Mealy.outputsTo_eq (R := Shows stream group)
  · exact fun redis s c own calls hown h => shows_own hown h
  · exact fun redis s c calls hown h => shows_other hown h
  · refine ⟨k, hstream, ?_, Or.inr hjoin⟩
    rw [StreamKey.view, hnew, Option.getD_none]

/-- A task published before anybody joined, and a second group on the stream. -/
def lateJoin : List Call :=
  [.publish "tasks:work" [("task_id", "task-0")], .ensureGroup "tasks:work" "audit",
    .readNew "tasks:work" "audit" "auditor" 3 10, .ensureGroup "tasks:work" "workers",
    .readNew "tasks:work" "workers" "worker-0" 5 10]

theorem lateJoin_sees_lone_stream :
    JoinsFirst "tasks:work" "workers" lateJoin ∧
      Mealy.outputsTo (Call.own? "tasks:work" "workers") call (fun _ => .stream .absent) lateJoin =
        Mealy.outputs serveAlone (.fresh []) (lateJoin.filterMap (Call.own? "tasks:work" "workers")) :=
  have hjoin : JoinsFirst "tasks:work" "workers" lateJoin := by simp [lateJoin, JoinsFirst, Call.readNew]
  ⟨hjoin, group_sees_lone_stream "tasks:work" "workers" _ .absent rfl rfl lateJoin hjoin⟩

def Call.ensures? (stream group : String) : Call → Option Unit
  | .ensureGroup st g => if st = stream ∧ g = group then some () else none
  | _ => none

/-- The answers of `ensure_group` alone, given whether the group exists; `none` where the key holds
no stream. -/
def announce : Option Bool → Unit → Answer × Option Bool
  | none, _ => (.raised wrongType, none)
  | some joined, _ => (.flag !joined, some true)

theorem outputs_announce_joined (n : ℕ) :
    Mealy.outputs announce (some true) (List.replicate n ()) = List.replicate n (.flag false) := by
  induction n with
  | zero => rfl
  | succ n ih => simp only [List.replicate_succ, Mealy.outputs_cons, announce, ih, Bool.not_true]

theorem outputs_announce_none (n : ℕ) :
    Mealy.outputs announce none (List.replicate n ()) = List.replicate n (.raised wrongType) := by
  induction n with
  | zero => rfl
  | succ n ih => simp only [List.replicate_succ, Mealy.outputs_cons, announce, ih]

/-- Whether the group exists under the key, if the key holds a stream. -/
def joined? (stream group : String) (redis : Redis) : Option Bool :=
  match redis stream with
  | .other => none
  | .stream k => some (k.groups group).isSome

theorem joined?_congr {stream group : String} {redis redis' : Redis}
    (h : redis' stream = redis stream) : joined? stream group redis' = joined? stream group redis := by
  rw [joined?, joined?, h]

theorem joined?_stream {stream group : String} {redis : Redis} {k : StreamKey Fields}
    (h : redis stream = .stream k) :
    joined? stream group redis = some (k.groups group).isSome := by
  rw [joined?, h]

theorem joined?_ensured (redis : Redis) (stream group : String) :
    (call redis (.ensureGroup stream group)).1 = (announce (joined? stream group redis) ()).1 ∧
      joined? stream group (call redis (.ensureGroup stream group)).2 =
        (announce (joined? stream group redis) ()).2 := by
  cases hv : redis stream with
  | other =>
    simp only [call, ensureGroup_other hv, joined?, hv]
    exact ⟨rfl, by simp [announce, hv]⟩
  | stream k =>
    obtain ⟨k', hc, hsome, -⟩ := ensureGroup_stream hv group
    simp only [call, hc, joined?_stream hv]
    refine ⟨?_, ?_⟩
    · cases k.groups group <;> rfl
    · change joined? stream group (Function.update redis stream (.stream k')) = _
      rw [joined?_stream (Function.update_self _ _ _), hsome]
      rfl

theorem joined?_other {redis : Redis} {stream group : String} {c : Call}
    (h : c.ensures? stream group = none) :
    joined? stream group (call redis c).2 = joined? stream group redis := by
  cases c with
  | publish st fields =>
    by_cases hst : stream = st
    · subst hst
      cases hv : redis stream with
      | other =>
        have he : redis.execute (.xadd stream (encodeFields fields)) = (.error wrongType, redis) :=
          Keyspace.execute_other hv
        simp only [call, he]
        rfl
      | stream k =>
        simp only [call, Keyspace.execute_xadd hv]
        change joined? stream group (Function.update redis stream _) = _
        rw [joined?_stream (Function.update_self _ _ _), joined?_stream hv, StreamKey.xadd]
        simp
    · exact joined?_congr ((call_of_ne hst).1 fields)
  | ensureGroup st g =>
    by_cases hst : stream = st
    · subst hst
      have hg : group ≠ g := by
        rintro rfl
        simp [Call.ensures?] at h
      cases hv : redis stream with
      | other =>
        simp only [call, ensureGroup_other hv]
        rfl
      | stream k =>
        obtain ⟨k', hc, -, hgroups, -⟩ := ensureGroup_stream hv g
        simp only [call, hc]
        change joined? stream group (Function.update redis stream (.stream k')) = _
        rw [joined?_stream (Function.update_self _ _ _), joined?_stream hv, hgroups group hg]
    · exact joined?_congr ((call_of_ne hst).2.1 g)
  | onGroup st g c =>
    by_cases hst : stream = st
    · subst hst
      cases hv : redis stream with
      | other =>
        have he : redis.execute (.onGroup stream g c) = (.error wrongType, redis) :=
          Keyspace.execute_other hv
        simp only [call, he]
        rfl
      | stream k =>
        cases hgs : k.groups g with
        | none => rw [call_onGroup_missing hv hgs]
        | some t =>
          have hsome : (k.groups g).isSome := by
            rw [hgs]
            rfl
          obtain ⟨k', hc, -, hs, hother⟩ := call_onGroup hv hsome c
          rw [hc, joined?_stream (Function.update_self _ _ _), joined?_stream hv]
          by_cases hg : group = g
          · rw [hg, hs, hsome]
          · rw [(hother group hg).2]
    · exact joined?_congr ((call_of_ne hst).2.2 g c)

theorem outputs_announce (joined : Bool) (n : ℕ) :
    Mealy.outputs announce (some joined) (List.replicate n ()) =
      (List.range n).map fun i => .flag (i == 0 && !joined) := by
  cases n with
  | zero => rfl
  | succ n =>
    rw [List.replicate_succ, Mealy.outputs_cons, List.range_succ_eq_map, List.map_cons, List.map_map]
    change _ :: Mealy.outputs announce (some true) _ = _
    rw [outputs_announce_joined]
    congr 1
    have hf : (fun i => Answer.flag (i == 0 && !joined)) ∘ Nat.succ = fun _ => .flag false := by
      funext i
      simp
    rw [hf, List.map_const', List.length_range]

theorem filterMap_ensures (stream group : String) (calls : List Call) :
    calls.filterMap (Call.ensures? stream group) =
      List.replicate (calls.countP fun c => (c.ensures? stream group).isSome) () := by
  rw [List.eq_replicate_iff, List.length_filterMap_eq_countP]
  exact ⟨rfl, fun _ _ => rfl⟩

/-- However many consumers start, and whatever is published and asked of groups between their
`ensure_group` calls, where nobody deletes the stream or a group: the first call creates the group and
every later one finds it, and on a key without a stream every one raises. -/
theorem ensureGroup_creates_once (stream group : String) (redis : Redis) (calls : List Call) :
    let n := calls.countP fun c => (c.ensures? stream group).isSome
    Mealy.outputsTo (Call.ensures? stream group) call redis calls =
      match redis stream with
      | .other => List.replicate n (.raised wrongType)
      | .stream k => (List.range n).map fun i => .flag (i == 0 && (k.groups group).isNone) := by
  intro n
  have hrun : Mealy.outputsTo (Call.ensures? stream group) call redis calls =
      Mealy.outputs announce (joined? stream group redis)
        (calls.filterMap (Call.ensures? stream group)) := by
    apply Mealy.outputsTo_eq (R := fun redis s _ => joined? stream group redis = s)
    · rintro redis s c ⟨⟩ calls hc rfl
      cases c with
      | ensureGroup st g =>
        simp only [Call.ensures?] at hc
        split_ifs at hc with hst
        obtain ⟨rfl, rfl⟩ := hst
        exact joined?_ensured redis st g
      | publish st fields => cases hc
      | onGroup st g c => cases hc
    · rintro redis s c calls hc rfl
      exact joined?_other hc
    · rfl
  rw [hrun, filterMap_ensures]
  cases hv : redis stream with
  | other =>
    rw [joined?, hv]
    exact outputs_announce_none n
  | stream k =>
    rw [joined?_stream hv, outputs_announce]
    simp only [Option.not_isSome]
    rfl

/-- No call of `ensure_all_groups` changes what a group sees; it returns exactly where all its keys
hold streams, and the group is then on each of them. -/
theorem ensureEach_spec (group : String) (streams : List String) (redis : Redis) :
    (∀ st k, redis st = .stream k → ∃ k', (ensureEach group streams redis).2 st = .stream k' ∧
        (∀ g, k'.view g = k.view g) ∧ ((k.groups group).isSome → (k'.groups group).isSome) ∧
        ((ensureEach group streams redis).1 = .ok () → st ∈ streams → (k'.groups group).isSome)) ∧
      ((ensureEach group streams redis).1 = .ok () ↔ ∀ st ∈ streams, redis st ≠ .other) := by
  induction streams generalizing redis with
  | nil => exact ⟨fun st k h => ⟨k, h, fun _ => rfl, id, fun _ hm => by cases hm⟩, by simp [ensureEach]⟩
  | cons s₀ streams ih =>
    cases hv : redis s₀ with
    | other =>
      have he : ensureEach group (s₀ :: streams) redis = (.error wrongType, redis) := by
        simp only [ensureEach, ensureGroup_other hv]
      rw [he]
      refine ⟨fun st k h => ⟨k, h, fun _ => rfl, id, fun h => by cases h⟩, ?_⟩
      simp [hv]
    | stream k₀ =>
      obtain ⟨k₁, hc, hsome, -, hview⟩ := ensureGroup_stream hv group
      have he : ensureEach group (s₀ :: streams) redis =
          ensureEach group streams (Function.update redis s₀ (.stream k₁)) := by
        simp only [ensureEach, hc]
      obtain ⟨hkeep, hok⟩ := ih (Function.update redis s₀ (.stream k₁))
      rw [he]
      constructor
      · intro st k h
        by_cases hst : st = s₀
        · subst hst
          obtain rfl : k₀ = k := Value.stream.inj (hv.symm.trans h)
          obtain ⟨k', hk', hv', hs', -⟩ := hkeep st k₁ (Function.update_self _ _ _)
          exact ⟨k', hk', fun g => (hv' g).trans (hview g), fun _ => hs' hsome,
            fun _ _ => hs' hsome⟩
        · obtain ⟨k', hk', hv', hs', hd⟩ := hkeep st k (by rw [Function.update_of_ne hst, h])
          refine ⟨k', hk', hv', hs', fun hr hm => hd hr ?_⟩
          exact (List.mem_cons.mp hm).resolve_left hst
      · rw [hok]
        simp only [List.forall_mem_cons, hv, ne_eq, reduceCtorEq, not_false_eq_true, true_and]
        apply forall₂_congr
        intro st _
        by_cases hst : st = s₀
        · simp [hst, hv]
        · rw [Function.update_of_ne hst]

/-- Where the group is on none of its streams, `ensure_all_groups` puts it on each of them, with every
entry still to be handed out. -/
theorem ensureEach_fresh {streams : List String} {redis : Redis} {group : String}
    (h : ∀ st ∈ streams, ∃ k, redis st = .stream k ∧ k.groups group = none) :
    (ensureEach group streams redis).1 = .ok () ∧ ∀ st ∈ streams, ∃ k k', redis st = .stream k ∧
      (ensureEach group streams redis).2 st = .stream k' ∧
      k'.groups group = some (.fresh k.entries) := by
  obtain ⟨hkeep, hreturns⟩ := ensureEach_spec group streams redis
  have hok : (ensureEach group streams redis).1 = .ok () := by
    refine hreturns.mpr fun st hst hother => ?_
    obtain ⟨k, hk, -⟩ := h st hst
    rw [hk] at hother
    cases hother
  refine ⟨hok, fun st hst => ?_⟩
  obtain ⟨k, hk, hnone⟩ := h st hst
  obtain ⟨k', hk', hview, -, hjoined⟩ := hkeep st k hk
  obtain ⟨s, hs⟩ := Option.isSome_iff_exists.mp (hjoined hok hst)
  have hfresh : k'.view group = .fresh k.entries := by
    rw [hview, StreamKey.view, hnone, Option.getD_none]
  rw [StreamKey.view, hs, Option.getD_some] at hfresh
  exact ⟨k, k', hk, hk', by rw [hs, hfresh]⟩

end StreamBroker

namespace Dlq

def mainStream : String := "payments:main"

def dlqStream : String := "payments:dlq"

def ensureGroup (redis : StreamBroker.Redis) (stream group : String) :=
  StreamBroker.ensureGroup redis stream group

def ensureAllGroups (redis : StreamBroker.Redis) (group : String) :=
  StreamBroker.ensureEach group [mainStream, dlqStream] redis

theorem ensureAllGroups_fresh {redis : StreamBroker.Redis} {group : String}
    (h : ∀ st ∈ [mainStream, dlqStream], ∃ k, redis st = .stream k ∧ k.groups group = none) :
    (ensureAllGroups redis group).1 = .ok () ∧ ∀ st ∈ [mainStream, dlqStream], ∃ k k',
      redis st = .stream k ∧ (ensureAllGroups redis group).2 st = .stream k' ∧
      k'.groups group = some (.fresh k.entries) :=
  StreamBroker.ensureEach_fresh h

end Dlq

namespace PriorityQueue

/-- `STREAMS`, the stream of each priority. -/
def streams : Priority → String
  | .high => "support:high"
  | .normal => "support:normal"
  | .low => "support:low"

def ensureGroup (redis : StreamBroker.Redis) (priority : Priority) (group : String) :=
  StreamBroker.ensureGroup redis (streams priority) group

def ensureAllGroups (redis : StreamBroker.Redis) (group : String) :=
  StreamBroker.ensureEach group ([.high, .normal, .low].map streams) redis

theorem ensureAllGroups_fresh {redis : StreamBroker.Redis} {group : String}
    (h : ∀ priority, ∃ k, redis (streams priority) = .stream k ∧ k.groups group = none) :
    (ensureAllGroups redis group).1 = .ok () ∧ ∀ priority, ∃ k k',
      redis (streams priority) = .stream k ∧
      (ensureAllGroups redis group).2 (streams priority) = .stream k' ∧
      k'.groups group = some (.fresh k.entries) := by
  have hmem (priority : Priority) : streams priority ∈ [.high, .normal, .low].map streams := by
    cases priority <;> simp
  have hall : ∀ st ∈ [.high, .normal, .low].map streams, ∃ k, redis st = .stream k ∧
      k.groups group = none := by
    intro st hst
    obtain ⟨priority, -, rfl⟩ := List.mem_map.mp hst
    exact h priority
  obtain ⟨hok, hjoined⟩ := StreamBroker.ensureEach_fresh hall
  exact ⟨hok, fun priority => hjoined _ (hmem priority)⟩

end PriorityQueue
