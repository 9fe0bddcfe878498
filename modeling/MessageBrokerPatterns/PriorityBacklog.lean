import MessageBrokerPatterns.PriorityLanes
import MessageBrokerPatterns.PriorityNaive
import MessageBrokerPatterns.PriorityScan
import MessageBrokerPatterns.StableSort

/-!
# A strict consumer alone with a backlog

All tickets are published before one strict-priority consumer starts, and its handler returns. What it
has handled, what it holds and what the tiers still have for it, one tier after another in its scan
order, is then always the same list: a batch is taken from the first tier that has something, and the
tiers before that have nothing left. When a scan finds nothing, all of the list has been handled.
-/

namespace PriorityQueue
open PyText PyDict RedisStream ActionRun StableSort

def Event.ticket : Event → SupportTicket
  | .handled _ _ _ t => t

def served (consumerId : String) (p : Priority) (batch : List (ℕ × Fields)) : List Event :=
  batch.filterMap fun e =>
    (SupportTicket.fromFields e.2).toOption.map (Event.handled consumerId p e.1)

def Consumer.inHand (k : Consumer) : List Event :=
  match k.pc with
  | .handler m => .handled k.consumerId m.priority m.id m.ticket :: served k.consumerId m.priority m.rest
  | .ack m => served k.consumerId m.priority m.rest
  | _ => []

def Server.backlog (s : Server) (consumerId : String) (scanOrder : List Priority) : List Event :=
  scanOrder.flatMap fun p => served consumerId p (s.streams p).undelivered

/-- How far the run is from the end of its scan, without the tickets that it has yet to claim. -/
def Consumer.stage (k : Consumer) : ℕ :=
  match k.pc with
  | .top => k.scanOrder.length + 2
  | .scan left => left.length + 1
  | .sleep => k.scanOrder.length + 3
  | .handler m => 2 * (m.rest.length + 1) + k.scanOrder.length + 2
  | .ack m => 2 * m.rest.length + 1 + k.scanOrder.length + 2
  | _ => 0

theorem served_append (c : String) (p : Priority) (l l' : List (ℕ × Fields)) :
    served c p (l ++ l') = served c p l ++ served c p l' := List.filterMap_append

theorem served_cons {c : String} {p : Priority} {id : ℕ} {f : Fields} {t : SupportTicket}
    (ht : SupportTicket.fromFields f = .ok t) (l : List (ℕ × Fields)) :
    served c p ((id, f) :: l) = .handled c p id t :: served c p l := by
  rw [served, List.filterMap_cons_some (by rw [ht]; rfl)]
  rfl

theorem length_served {s : Server} (hwf : s.WellFormed) (c : String) (p : Priority)
    {batch : List (ℕ × Fields)} (hb : ∀ e ∈ batch, entryAt (s.entries p) e.1 = some e.2) :
    (served c p batch).length = batch.length := by
  induction batch with
  | nil => rfl
  | cons e batch ih =>
    obtain ⟨id, f⟩ := e
    obtain ⟨t, ht⟩ := hwf p id f (hb _ List.mem_cons_self)
    rw [served_cons ht, List.length_cons, List.length_cons,
      ih fun e he => hb e (List.mem_cons_of_mem _ he)]

/-- The `for` loop over a batch starts with its first call. -/
theorem Consumer.forBatch_serves (k : Consumer) {s : Server} (hwf : s.WellFormed) {p : Priority}
    {batch : List (ℕ × Fields)} (hb : ∀ e ∈ batch, entryAt (s.entries p) e.1 = some e.2) :
    (k.forBatch p batch).inHand = served k.consumerId p batch ∧
      (k.forBatch p batch).stage = 2 * batch.length + k.scanOrder.length + 2 ∧
      (k.forBatch p batch).passed = [] ∧ (k.forBatch p batch).pc ≠ .sleep := by
  cases batch with
  | nil =>
    refine ⟨rfl, ?_, rfl, by simp [forBatch]⟩
    simp [forBatch, stage]
  | cons e rest =>
    obtain ⟨id, f⟩ := e
    obtain ⟨t, ht⟩ := hwf p id f (hb _ List.mem_cons_self)
    have heq : k.forBatch p ((id, f) :: rest) = { k with pc := .handler ⟨p, id, t, rest⟩ } := by
      simp only [forBatch, ht]
    rw [heq, served_cons ht]
    exact ⟨rfl, rfl, rfl, by simp⟩

theorem Server.backlog_readNew {s : Server} {order done left : List Priority} {p : Priority}
    (hnodup : order.Nodup) (horder : order = done ++ p :: left)
    (hdone : ∀ q ∈ done, (s.streams q).undelivered = []) (c : String) (count : ℕ) :
    served c p ((s.streams p).newBatch count) ++ (s.readNew p c count).2.backlog c order =
      s.backlog c order := by
  subst horder
  have hne {q : Priority} (hq : q ∈ done ++ left) : q ≠ p := by
    rintro rfl
    exact (List.nodup_cons.mp (List.nodup_middle.mp hnodup)).1 hq
  have hother {q : Priority} (hq : q ∈ done ++ left) :
      ((s.readNew p c count).2.streams q).undelivered = (s.streams q).undelivered := by
    simp only [readNew, Function.update_of_ne (hne hq)]
  have hself : ((s.readNew p c count).2.streams p).undelivered =
      ((s.streams p).readNew c () count).undelivered := by
    simp only [readNew, Function.update_self]
  have hempty {u : Server} (h : ∀ q ∈ done, (u.streams q).undelivered = []) :
      (done.flatMap fun q => served c q (u.streams q).undelivered) = [] := by
    rw [List.flatMap_eq_nil_iff]
    intro q hq
    rw [h q hq]
    rfl
  have hdone' : ∀ q ∈ done, ((s.readNew p c count).2.streams q).undelivered = [] :=
    fun q hq => (hother (List.mem_append_left _ hq)).trans (hdone q hq)
  have hleft : (left.flatMap fun q =>
        served c q ((s.readNew p c count).2.streams q).undelivered) =
      left.flatMap fun q => served c q (s.streams q).undelivered :=
    List.flatMap_congr fun q hq => by rw [hother (List.mem_append_right _ hq)]
  rw [backlog, backlog, List.flatMap_append, List.flatMap_append, hempty hdone, hempty hdone',
    List.nil_append, List.nil_append, List.flatMap_cons, List.flatMap_cons, hleft, hself,
    ← List.append_assoc, ← served_append, GroupStream.newBatch_append_undelivered]

theorem Server.readNew_of_empty {s : Server} {p : Priority} {count : ℕ}
    (hnil : (s.streams p).newBatch count = []) (c : String) : (s.readNew p c count).2 = s := by
  rw [readNew, GroupStream.readNew_eq_self (GroupStream.newBatch_eq_nil.mp hnil),
    Function.update_eq_self]

theorem Server.undelivered_ack (s : Server) (p q : Priority) (id : ℕ) :
    ((s.ack p id).streams q).undelivered = (s.streams q).undelivered := by
  by_cases hq : q = p
  · subst hq
    simp [ack]
  · simp only [ack, Function.update_of_ne hq]

theorem Consumer.of_polls {k : Consumer} {tiers : List Priority} (h : k.polls = some tiers) :
    k.inHand = [] ∧ tiers.length + 1 ≤ k.stage := by
  unfold polls at h
  split at h
  · rename_i hpc
    cases h
    simp only [inHand, stage, hpc, true_and]
    omega
  · rename_i left hpc
    cases h
    simp only [inHand, stage, hpc, true_and, Nat.le_refl]
  · cases h

/-- A command of the run moves calls from the backlog into its hands, in order, and it comes closer
to the end of the backlog, or of the scan. -/
structure Serves (k : Consumer) (s : Server) (k' : Consumer) (s' : Server) : Prop where
  conserves : k'.inHand ++ s'.backlog k.consumerId k.scanOrder =
    k.inHand ++ s.backlog k.consumerId k.scanOrder
  drained : ∀ q ∈ k'.passed, (s'.streams q).undelivered = []
  empty : k'.pc = .sleep → ∀ q ∈ k.scanOrder, (s'.streams q).undelivered = []
  closer : k'.pc ≠ .sleep →
    (s'.backlog k.consumerId k.scanOrder).length * (k.scanOrder.length + 4) + k'.stage <
      (s.backlog k.consumerId k.scanOrder).length * (k.scanOrder.length + 4) + k.stage

theorem Move.serves {k k' : Consumer} {s s' : Server} (hm : Move k s k' s') (hwf : s.WellFormed)
    (hf : k.Faithful s) (hcount : 1 ≤ k.count) (hnodup : k.scanOrder.Nodup)
    (horder : ∀ left, k.pc = .scan left → ∃ done, k.scanOrder = done ++ left)
    (hdrained : ∀ q ∈ k.passed, (s.streams q).undelivered = []) : Serves k s k' s' := by
  cases hm with
  | claim p left hpc hne =>
    obtain ⟨hhand, hstage⟩ := Consumer.of_polls hpc
    obtain ⟨hserved, hstage', hpassed, hpc'⟩ :=
      k.forBatch_serves hwf (s.streams p).entryAt_of_mem_newBatch
    have htake := Server.backlog_readNew hnodup (Consumer.polls_order hpc horder) hdrained
      k.consumerId k.count
    refine ⟨?_, ?_, fun h => absurd h hpc', fun _ => ?_⟩
    · rw [hserved, hhand, htake, List.nil_append]
    · rw [hpassed]
      exact fun q hq => absurd hq List.not_mem_nil
    · rw [← htake, List.length_append, hstage',
        length_served hwf _ _ (s.streams p).entryAt_of_mem_newBatch]
      have hpos := List.length_pos_iff.mpr hne
      generalize ((s.streams p).newBatch k.count).length = b at hpos
      have hb : b * (k.scanOrder.length + 4) = b * (k.scanOrder.length + 2) + b * 2 :=
        Nat.mul_add b (k.scanOrder.length + 2) 2
      have hl := Nat.le_mul_of_pos_left (k.scanOrder.length + 2) hpos
      rw [Nat.add_mul, hb]
      omega
  | empty p left hpc hnil =>
    obtain ⟨hhand, hstage⟩ := Consumer.of_polls hpc
    have ho := Consumer.polls_order hpc horder
    have hp : (s.streams p).undelivered = [] :=
      GroupStream.undelivered_eq_nil_of_newBatch hcount hnil
    rw [Server.readNew_of_empty hnil]
    by_cases hleft : left = []
    · subst hleft
      rw [if_pos rfl]
      refine ⟨?_, ?_, fun _ q hq => ?_, fun h => absurd rfl h⟩
      · rw [hhand]
        rfl
      · intro q hq
        cases hq
      · rw [ho, List.mem_append, List.mem_singleton] at hq
        rcases hq with hq | rfl
        · exact hdrained q hq
        · exact hp
    · rw [if_neg hleft]
      have hpassed : ({ k with pc := .scan left } : Consumer).passed = k.passed ++ [p] := by
        refine Consumer.passed_eq rfl ?_
        rw [List.append_assoc]
        exact ho
      refine ⟨?_, ?_, fun h => ?_, fun _ => ?_⟩
      · rw [hhand]
        rfl
      · intro q hq
        rw [hpassed, List.mem_append, List.mem_singleton] at hq
        rcases hq with hq | rfl
        · exact hdrained q hq
        · exact hp
      · cases h
      · rw [List.length_cons] at hstage
        change _ + (left.length + 1) < _
        omega
  | noTier hpc =>
    obtain ⟨hhand, -⟩ := Consumer.of_polls hpc
    refine ⟨?_, ?_, fun _ => ?_, fun h => absurd rfl h⟩
    · rw [hhand]
      rfl
    · intro q hq
      cases hq
    · unfold Consumer.polls at hpc
      split at hpc
      · rw [Option.some.inj hpc]
        exact fun q hq => absurd hq List.not_mem_nil
      · rename_i left hscan
        obtain ⟨done, hdone⟩ := horder left hscan
        rw [Consumer.passed_eq hscan hdone] at hdrained
        rw [hdone, Option.some.inj hpc, List.append_nil]
        exact hdrained
      · cases hpc
  | wake hpc =>
    refine ⟨?_, ?_, fun h => (by cases h), fun _ => ?_⟩
    · simp only [Consumer.inHand, hpc]
    · intro q hq
      cases hq
    · simp only [Consumer.stage, hpc]
      omega
  | ack m hpc =>
    obtain ⟨hserved, hstage, hpassed, hpc'⟩ :=
      Consumer.forBatch_serves { k with totalHandled := k.totalHandled + 1 } hwf
        (hf m (Or.inr hpc)).2
    have hbacklog : (((s.ack m.priority m.id).countConsumed m.priority)).backlog k.consumerId
        k.scanOrder = s.backlog k.consumerId k.scanOrder :=
      List.flatMap_congr fun q _ => congrArg _ (s.undelivered_ack m.priority q m.id)
    refine ⟨?_, ?_, fun h => absurd h hpc', fun _ => ?_⟩
    · rw [hserved, hbacklog]
      simp only [Consumer.inHand, hpc]
    · rw [hpassed]
      exact fun q hq => absurd hq List.not_mem_nil
    · rw [hbacklog, hstage]
      simp only [Consumer.stage, hpc]
      omega

theorem Consumer.exists_command {k : Consumer} (hlive : k.ended = false)
    (hhandler : ∀ m, k.pc ≠ .handler m) (s : Server) : ∃ k' s', k.command s = some (k', s') := by
  unfold command
  cases hpc : k.pc with
  | top => exact ⟨_, _, rfl⟩
  | scan left => exact ⟨_, _, rfl⟩
  | sleep => exact ⟨_, _, rfl⟩
  | handler m => exact absurd hpc (hhandler m)
  | ack m => exact ⟨_, _, rfl⟩
  | returned => simp [ended, hpc] at hlive
  | raised e claims => simp [ended, hpc] at hlive
  | crashed claims => simp [ended, hpc] at hlive

namespace World

def turn (i : ℕ) (w : World) : Action :=
  match (w.runs i).map Consumer.pc with
  | some (.handler _) => .handler i none
  | _ => .run i

def Asleep (w : World) (i : ℕ) : Prop := ∃ k, w.runs i = some k ∧ k.pc = .sleep

/-- How far the run is from a scan that finds nothing. -/
def distance (consumerId : String) (scanOrder : List Priority) (i : ℕ) (w : World) : ℕ :=
  match w.runs i with
  | some k => (w.server.backlog consumerId scanOrder).length * (scanOrder.length + 4) + k.stage
  | none => 0

/-- The run is alone, and what it has handled, what it holds and what is left are `all`. -/
structure Serving (all : List Event) (consumerId : String) (scanOrder : List Priority) (i : ℕ)
    (w : World) (k : Consumer) : Prop where
  run : w.runs i = some k
  name : k.consumerId = consumerId
  order : k.scanOrder = scanOrder
  live : k.ended = false
  lane : k.InLane
  scan : ScanInv i w
  claimed : ClaimInv w
  conserved : w.trace ++ (k.inHand ++ w.server.backlog consumerId scanOrder) = all
  drained : ∀ q ∈ k.passed, (w.server.streams q).undelivered = []
  empty : k.pc = .sleep → ∀ q ∈ scanOrder, (w.server.streams q).undelivered = []
  credited : k.credited = w.trace.length

variable {all : List Event} {c : String} {order : List Priority} {i : ℕ} {w w' : World}
  {k k' : Consumer}

theorem distance_eq (hk : w.runs i = some k) : distance c order i w =
    (w.server.backlog c order).length * (order.length + 4) + k.stage := by
  simp only [distance, hk]

theorem Serving.moved (h : Serving all c order i w k) (hnodup : order.Nodup) {s' : Server}
    (hcommand : k.command w.server = some (k', s')) (hstep : step w (.run i) = some w')
    (hw' : w' = w.moved i k' s' []) :
    Serving all c order i w' k' ∧ (w'.Asleep i ∨ distance c order i w' < distance c order i w) := by
  obtain ⟨hrun, rfl, rfl, hlive, hlane, hscan, hclaimed, hconserved, hdrained, hempty, hcredited⟩ := h
  have hm := Move.of_command hcommand
  have hf := hclaimed.faithful i k hrun
  have hserves := hm.serves hclaimed.wellFormed hf hlane.asks hnodup
    (fun left hpc => hscan.order k left hrun hpc) hdrained
  obtain ⟨hname, horder, hlane', hcredit, -⟩ := hm.lane hclaimed.wellFormed hf hlane
  obtain ⟨-, hlive', -⟩ := hm.claims_cases hclaimed.wellFormed hf
  have hrun' : w'.runs i = some k' := by
    rw [hw']
    exact w.setRun_self i k'
  have hserver : w'.server = s' := by rw [hw']; rfl
  have htrace : w'.trace = w.trace := by
    rw [hw']
    exact List.append_nil _
  have hstrict : StrictRun i (.run i) := trivial
  refine ⟨⟨hrun', hname, horder, hlive', hlane', scanInv_step w _ w' hscan hstrict hstep,
    claimInv_step w _ w' hclaimed hstep, ?_, ?_, ?_, ?_⟩, ?_⟩
  · rw [htrace, hserver, hserves.conserves, hconserved]
  · rw [hserver]
    exact hserves.drained
  · rw [hserver]
    exact hserves.empty
  · rw [hcredit, hcredited, htrace]
  · by_cases hpc : k'.pc = .sleep
    · exact Or.inl ⟨k', hrun', hpc⟩
    · rw [distance_eq hrun, distance_eq hrun', hserver]
      exact Or.inr (hserves.closer hpc)

theorem Serving.returns (h : Serving all c order i w k) {m : Held} (hpc : k.pc = .handler m)
    (hstep : step w (.handler i none) = some w')
    (hw' : w' = w.moved i { k with pc := .ack m } w.server
      [.handled k.consumerId m.priority m.id m.ticket]) :
    Serving all c order i w' { k with pc := .ack m } ∧
      distance c order i w' < distance c order i w := by
  have hrun' : w'.runs i = some { k with pc := .ack m } := by
    rw [hw']
    exact w.setRun_self i _
  have hserver : w'.server = w.server := by rw [hw']; rfl
  have htrace : w'.trace = w.trace ++ [.handled k.consumerId m.priority m.id m.ticket] := by
    rw [hw']
    rfl
  have hstrict : StrictRun i (.handler i none) := trivial
  refine ⟨⟨hrun', h.name, h.order, rfl, ⟨h.lane.asks, fun n hn => ?_, fun tiers ht => ?_⟩,
    scanInv_step w _ w' h.scan hstrict hstep, claimInv_step w _ w' h.claimed hstep, ?_, ?_, ?_, ?_⟩,
    ?_⟩
  · rcases hn with hn | hn
    · cases hn
    · cases hn
      exact h.lane.holds m (Or.inl hpc)
  · cases ht
  · rw [htrace, hserver, ← h.conserved]
    simp only [Consumer.inHand, hpc, List.append_assoc, List.cons_append, List.nil_append]
  · intro q hq
    cases hq
  · intro hsleep
    cases hsleep
  · rw [htrace, List.length_append, ← h.credited]
    simp only [Consumer.credited, hpc, List.length_singleton]
  · rw [distance_eq h.run, distance_eq hrun', hserver]
    simp only [Consumer.stage, hpc]
    omega

/-- The run can always go on, and it comes closer to a scan that finds nothing. -/
theorem Serving.turn (h : Serving all c order i w k) (hnodup : order.Nodup) :
    ∃ w' k', step w (turn i w) = some w' ∧ Serving all c order i w' k' ∧
      (w'.Asleep i ∨ distance c order i w' < distance c order i w) := by
  by_cases hhandler : ∃ m, k.pc = .handler m
  · obtain ⟨m, hpc⟩ := hhandler
    have hturn : World.turn i w = .handler i none := by
      simp only [World.turn, h.run, Option.map_some, hpc]
    have hstep : step w (.handler i none) = some (w.moved i { k with pc := .ack m } w.server
        [.handled k.consumerId m.priority m.id m.ticket]) := by
      simp only [step, h.run, Consumer.handlerEnds, hpc, Option.map_some]
    obtain ⟨hserving, hlt⟩ := h.returns hpc hstep rfl
    exact ⟨_, _, by rw [hturn, hstep], hserving, Or.inr hlt⟩
  · have hhandler : ∀ m, k.pc ≠ .handler m := fun m hpc => hhandler ⟨m, hpc⟩
    obtain ⟨k', s', hcommand⟩ := Consumer.exists_command h.live hhandler w.server
    have hturn : World.turn i w = .run i := by
      simp only [World.turn, h.run, Option.map_some]
      split
      · rename_i m hpc
        exact absurd (Option.some.inj hpc) (hhandler m)
      · rfl
    have hstep : step w (.run i) = some (w.moved i k' s' []) := by
      simp only [step, h.run, hcommand, Option.map_some]
    obtain ⟨hserving, hlt⟩ := h.moved hnodup hcommand hstep rfl
    exact ⟨_, _, by rw [hturn, hstep], hserving, hlt⟩

theorem Serving.all_of_asleep (h : Serving all c order i w k) (hpc : k.pc = .sleep) :
    w.trace = all ∧ k.totalHandled = all.length := by
  have hnone : w.server.backlog c order = [] := by
    rw [Server.backlog, List.flatMap_eq_nil_iff]
    intro q hq
    rw [h.empty hpc q hq]
    rfl
  have hall : w.trace = all := by
    rw [← h.conserved, hnone]
    simp only [Consumer.inHand, hpc, List.append_nil]
  refine ⟨hall, ?_⟩
  rw [← hall, ← h.credited]
  simp only [Consumer.credited, hpc]

theorem run_publish (tickets : List SupportTicket) (i : ℕ) (consumerId : String)
    (priorities : Option (List Priority)) (count : ℕ) (w : World) (hi : w.runs i = none) :
    run step w (tickets.map .publish ++ [.runStrictPriorityConsumer i consumerId priorities count]) =
      some (({ w with server := tickets.foldl Server.publish w.server } : World).setRun i
        (runStrictPriorityConsumer consumerId priorities count)) := by
  induction tickets generalizing w with
  | nil => simp [run, step, startRun, hi]
  | cons t tickets ih =>
    rw [List.map_cons, List.cons_append, run_cons]
    exact ih _ hi

end World

namespace Server
variable (tickets : List SupportTicket) (s : Server) (p : Priority)

theorem entries_foldl_publish : (tickets.foldl publish s).entries p = s.entries p ++
    (tickets.filter fun t => t.priority = p).map fun t => encodeFields t.toFields := by
  induction tickets generalizing s with
  | nil => exact (List.append_nil _).symm
  | cons t tickets ih =>
    rw [List.foldl_cons, ih, entries_publish]
    by_cases hp : p = t.priority
    · rw [if_pos hp, List.filter_cons_of_pos (by simp [hp]), List.map_cons, List.append_assoc,
        List.singleton_append]
    · rw [if_neg hp, List.filter_cons_of_neg (by simpa using Ne.symm hp)]

theorem delivered_foldl_publish : (tickets.foldl publish s).delivered p = s.delivered p := by
  induction tickets generalizing s with
  | nil => rfl
  | cons t tickets ih => rw [List.foldl_cons, ih, delivered_publish]

theorem undelivered_foldl_publish : ((tickets.foldl publish {}).streams p).undelivered =
    numberFrom 1 ((tickets.filter fun t => t.priority = p).map fun t => encodeFields t.toFields) := by
  have hentries := entries_foldl_publish tickets {} p
  have hdelivered := delivered_foldl_publish tickets {} p
  simp only [entries, delivered] at hentries hdelivered
  rw [GroupStream.undelivered, hentries, hdelivered]
  rfl

end Server

theorem ticket_served (c : String) (p : Priority) (tickets : List SupportTicket) (n : ℕ) :
    (served c p (numberFrom n (tickets.map fun t => encodeFields t.toFields))).map Event.ticket =
      tickets := by
  induction tickets generalizing n with
  | nil => rfl
  | cons t tickets ih =>
    rw [List.map_cons, numberFrom, served_cons t.fromFields_toFields, List.map_cons, ih]
    rfl

theorem key_served (c : String) (p : Priority) (tickets : List SupportTicket) (n : ℕ) :
    (served c p (numberFrom n (tickets.map fun t => encodeFields t.toFields))).map Event.key =
      (List.range' n tickets.length).map fun id => (p, id) := by
  induction tickets generalizing n with
  | nil => rfl
  | cons t tickets ih =>
    rw [List.map_cons, numberFrom, served_cons t.fromFields_toFields, List.map_cons, ih]
    rfl

namespace World
variable {i : ℕ} {w : World}

theorem ticket_backlog (tickets : List SupportTicket) (c : String) (order : List Priority) :
    ((tickets.foldl Server.publish {}).backlog c order).map Event.ticket =
      tiers order SupportTicket.priority tickets := by
  rw [Server.backlog, List.map_flatMap, tiers]
  refine List.flatMap_congr fun p _ => ?_
  rw [Server.undelivered_foldl_publish, ticket_served]

theorem key_backlog (tickets : List SupportTicket) (c : String) {order : List Priority}
    (hnodup : order.Nodup) (hall : ∀ p, p ∈ order)
    (hserver : w.server = tickets.foldl Server.publish {}) :
    (((tickets.foldl Server.publish {}).backlog c order).map Event.key).Perm w.keys := by
  have hperm : order.Perm [Priority.high, .normal, .low] := by
    refine (List.perm_ext_iff_of_nodup hnodup (by decide)).mpr fun p => ⟨fun _ => ?_, fun _ => hall p⟩
    cases p <;> simp
  have hmap : ((tickets.foldl Server.publish {}).backlog c order).map Event.key =
      order.flatMap fun p => (List.range' 1 (w.server.entries p).length).map fun id => (p, id) := by
    rw [Server.backlog, List.map_flatMap]
    refine List.flatMap_congr fun p _ => ?_
    rw [Server.undelivered_foldl_publish, key_served, hserver, Server.entries_foldl_publish,
      List.length_append, List.length_map]
    rw [show (({} : Server).entries p).length = 0 from rfl, Nat.zero_add]
  rw [hmap, keys]
  exact hperm.flatMap_right _

theorem serving_start (tickets : List SupportTicket) (i : ℕ) (consumerId : String)
    (priorities : Option (List Priority)) {count : ℕ} (hcount : 1 ≤ count)
    (hrun : run step {} (tickets.map .publish ++
      [.runStrictPriorityConsumer i consumerId priorities count]) = some w) :
    Serving ((tickets.foldl Server.publish {}).backlog consumerId
        (runStrictPriorityConsumer consumerId priorities count).scanOrder) consumerId
      (runStrictPriorityConsumer consumerId priorities count).scanOrder i w
      (runStrictPriorityConsumer consumerId priorities count) := by
  have hstrict : ∀ a ∈ tickets.map Action.publish ++
      [.runStrictPriorityConsumer i consumerId priorities count], StrictRun i a := by
    intro a ha
    rcases List.mem_append.mp ha with ha | ha
    · obtain ⟨t, -, rfl⟩ := List.mem_map.mp ha
      trivial
    · rw [List.mem_singleton.mp ha]
      exact ⟨rfl, hcount⟩
  have hscan : ScanInv i w := run_invariant (fun u a v hu ha hv => scanInv_step u a v hu ha hv)
    (scanInv_init i) (along_of_forall (fun a ha _ => hstrict a ha) _) hrun
  have hclaimed : ClaimInv w :=
    run_invariant_of_step (fun u a v hu hv => claimInv_step u a v hu hv) claimInv_init hrun
  obtain rfl := Option.some.inj
    (hrun.symm.trans (run_publish tickets i consumerId priorities count {} rfl))
  refine ⟨setRun_self _ i _, rfl, rfl, rfl, Consumer.inLane_of_top rfl hcount, hscan, hclaimed, rfl,
    fun q hq => ?_, fun hpc => ?_, rfl⟩
  · cases hq
  · cases hpc

/-- A strict-priority consumer alone with tickets that were published before it started, a scan order
that has every tier once, and a handler that returns: the run comes to a scan that finds nothing, and
whenever one has found nothing, each ticket has been handled once, and the tickets were handled in the
stable order of their tiers, as they are published and as a FIFO consumer of one stream serves them. -/
theorem strict_serves_stable_sort (tickets : List SupportTicket) (i : ℕ) (consumerId : String)
    (priorities : Option (List Priority)) (count : ℕ) (hcount : 1 ≤ count) (order : List Priority)
    (horder : (runStrictPriorityConsumer consumerId priorities count).scanOrder = order)
    (hnodup : order.Nodup) (hall : ∀ p, p ∈ order) :
    ∃ w₀, run step {} (tickets.map .publish ++
        [.runStrictPriorityConsumer i consumerId priorities count]) = some w₀ ∧
      (∃ n w, drive step (turn i) n w₀ = some w ∧ w.Asleep i) ∧
      ∀ n w, drive step (turn i) n w₀ = some w → w.Asleep i →
        (w.trace.map Event.key).Perm w₀.keys ∧ w.total i = tickets.length ∧
        w.trace.map Event.ticket = tickets.mergeSort (atMost order SupportTicket.priority) ∧
        ∀ fifoId fifoCount polls, tickets.length ≤ polls * fifoCount →
          ∃ s served, Naive.runFifoConsumer fifoId fifoCount polls
              (tickets.foldl Naive.publish .empty) [] = .ok (s, served) ∧
            w.trace.map Event.ticket =
              served.mergeSort (atMost order SupportTicket.priority) := by
  have hrun := run_publish tickets i consumerId priorities count {} rfl
  have hstart := serving_start tickets i consumerId priorities hcount hrun
  rw [horder] at hstart
  generalize hbacklog : (tickets.foldl Server.publish {}).backlog consumerId order = all at hstart
  refine ⟨_, hrun, ?_, fun n w hdrive hasleep => ?_⟩
  · refine drive_reaches (I := fun u => ∃ k, Serving all consumerId order i u k)
      (distance consumerId order i) (fun u ⟨k, hu⟩ => ?_) ⟨_, hstart⟩
    obtain ⟨v, k', hstep, hserving, hcloser⟩ := hu.turn hnodup
    exact ⟨v, hstep, ⟨k', hserving⟩, hcloser⟩
  · obtain ⟨k, hserving⟩ : ∃ k, Serving all consumerId order i w k := by
      refine drive_invariant (I := fun u => ∃ k, Serving all consumerId order i u k)
        (fun u v ⟨k, hu⟩ hv => ?_) ⟨_, hstart⟩ hdrive
      obtain ⟨v', k', hstep, hserving, -⟩ := hu.turn hnodup
      obtain rfl := Option.some.inj (hstep.symm.trans hv)
      exact ⟨k', hserving⟩
    obtain ⟨l, hl, hpc⟩ := hasleep
    obtain rfl := Option.some.inj (hserving.run.symm.trans hl)
    obtain ⟨htrace, htotal⟩ := hserving.all_of_asleep hpc
    subst hbacklog
    have hsorted : w.trace.map Event.ticket =
        tickets.mergeSort (atMost order SupportTicket.priority) := by
      rw [htrace, ticket_backlog, mergeSort_eq_tiers hnodup fun t _ => hall t.priority]
    refine ⟨?_, ?_, hsorted, fun fifoId fifoCount polls hpolls => ?_⟩
    · rw [htrace]
      exact key_backlog tickets consumerId hnodup hall rfl
    · rw [total, hserving.run]
      change k.totalHandled = tickets.length
      rw [htotal, ← htrace, ← List.length_map Event.ticket, hsorted, List.length_mergeSort]
    · obtain ⟨s, hs⟩ := Naive.runFifoConsumer_eq fifoId fifoCount polls tickets hpolls
      exact ⟨s, tickets, hs, hsorted⟩

def followUp : SupportTicket := ⟨"t-3", "still no invoice", .low, "cust-2"⟩

/-- Batches of one ticket each: the outage overtakes the two questions, which keep their order. -/
theorem outage_served_first :
    ∃ w₀ n w, run step {} ([question, followUp, outage].map .publish ++
        [.runStrictPriorityConsumer 0 "agent" none 1]) = some w₀ ∧
      drive step (turn 0) n w₀ = some w ∧ w.Asleep 0 ∧ w.total 0 = 3 ∧
      w.trace.map Event.ticket = [outage, question, followUp] := by
  obtain ⟨w₀, hrun, ⟨n, w, hdrive, hasleep⟩, hall⟩ := strict_serves_stable_sort
    [question, followUp, outage] 0 "agent" none 1 le_rfl [.high, .normal, .low] rfl (by decide)
    (fun p => by cases p <;> decide)
  obtain ⟨-, htotal, hsorted, -⟩ := hall n w hdrive hasleep
  rw [mergeSort_eq_tiers (by decide) fun t _ => by cases t.priority <;> decide] at hsorted
  exact ⟨w₀, n, w, hrun, hdrive, hasleep, htotal, hsorted⟩

end World
end PriorityQueue
