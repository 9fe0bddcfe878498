import MessageBrokerPatterns.PriorityConsumer
import MessageBrokerPatterns.ClaimLedger
import MessageBrokerPatterns.Slots

/-!
# Which tickets are handled

No read path of the priority queue goes back to the pending list. A delivered ticket is therefore
either handled or in the claims of exactly one run, and a run that has ended keeps its claims
forever. Once nothing more can be claimed, every published ticket has been handled exactly if no
run was ended, by a handler exception or a crash, while it had claims.
-/

namespace PriorityQueue
open PyText PyDict RedisStream ActionRun

/-- The message in hand and those behind it are entries of their stream. -/
def Consumer.Faithful (k : Consumer) (s : Server) : Prop :=
  ∀ m, k.pc = .handler m ∨ k.pc = .ack m →
    (∃ f, entryAt (s.entries m.priority) m.id = some f ∧
      SupportTicket.fromFields f = .ok m.ticket) ∧
    ∀ e ∈ m.rest, entryAt (s.entries m.priority) e.1 = some e.2

def Server.Issued (s : Server) (e : Priority × ℕ) : Prop := 1 ≤ e.2 ∧ e.2 ≤ s.delivered e.1

def Server.WellFormed (s : Server) : Prop :=
  ∀ p id f, entryAt (s.entries p) id = some f → ∃ t, SupportTicket.fromFields f = .ok t

theorem Consumer.forBatch_eq (k : Consumer) {s : Server} (hwf : s.WellFormed) {p : Priority}
    {batch : List (ℕ × Fields)} (hb : ∀ e ∈ batch, entryAt (s.entries p) e.1 = some e.2) :
    (k.forBatch p batch).claims = claimsOf p batch ∧ (k.forBatch p batch).ended = false ∧
      (k.forBatch p batch).Faithful s := by
  cases batch with
  | nil => exact ⟨rfl, rfl, fun m hm => by rcases hm with hm | hm <;> cases hm⟩
  | cons e rest =>
    obtain ⟨id, f⟩ := e
    have hf := hb _ List.mem_cons_self
    obtain ⟨t, ht⟩ := hwf p id f hf
    simp only [forBatch, ht]
    refine ⟨rfl, rfl, fun m hm => ?_⟩
    rcases hm with hm | hm
    · cases hm
      exact ⟨⟨f, hf, ht⟩, fun e he => hb e (List.mem_cons_of_mem _ he)⟩
    · cases hm

theorem Consumer.claims_of_live {k : Consumer} (hend : k.ended = false)
    (hidle : ∀ m, k.pc ≠ .handler m ∧ k.pc ≠ .ack m) : k.claims = [] := by
  unfold claims
  split
  · rename_i m hpc
    exact absurd hpc (hidle m).1
  · rename_i m hpc
    exact absurd hpc (hidle m).2
  · rename_i hpc
    simp [ended, hpc] at hend
  · rename_i hpc
    simp [ended, hpc] at hend
  · rfl

theorem Consumer.Faithful.mono {k : Consumer} {s s' : Server} (h : k.Faithful s)
    (hle : ∀ p id f, entryAt (s.entries p) id = some f → entryAt (s'.entries p) id = some f) :
    k.Faithful s' := by
  intro m hm
  obtain ⟨⟨f, hf, ht⟩, hrest⟩ := h m hm
  exact ⟨⟨f, hle _ _ _ hf, ht⟩, fun e he => hle _ _ _ (hrest e he)⟩

theorem claims_newBatch (s : GroupStream Fields String Unit) (p : Priority) (count : ℕ) :
    claimsOf p (s.newBatch count) =
      (List.range' (s.delivered + 1) (s.newCount count)).map fun id => (p, id) := by
  rw [← GroupStream.map_fst_newBatch, List.map_map]
  rfl

/-- A command keeps the claims of its run, or claims the next tickets of a tier for a run that had
none; it does not end the run. -/
theorem Move.claims_cases {k k' : Consumer} {s s' : Server} (hm : Move k s k' s')
    (hwf : s.WellFormed) (hf : k.Faithful s) :
    k.ended = false ∧ k'.ended = false ∧ k'.Faithful s' ∧ (∀ p, s'.entries p = s.entries p) ∧
    ((k'.claims = k.claims ∧ s'.Issued = s.Issued) ∨
      (k.claims = [] ∧ k'.claims.Nodup ∧ (∀ e ∈ k'.claims, ¬ s.Issued e) ∧
        ∀ e, s'.Issued e ↔ s.Issued e ∨ e ∈ k'.claims)) := by
  have hissued {s' : Server} (hd : ∀ p, s'.delivered p = s.delivered p) : s'.Issued = s.Issued := by
    funext e
    rw [Server.Issued, Server.Issued, hd]
  have hpolls {tiers : List Priority} (hpc : k.polls = some tiers) :
      k.ended = false ∧ k.claims = [] := by
    unfold Consumer.polls at hpc
    split at hpc
    · rename_i hk
      simp [Consumer.ended, Consumer.claims, hk]
    · rename_i hk
      simp [Consumer.ended, Consumer.claims, hk]
    · cases hpc
  cases hm with
  | claim p left hpc hne =>
    obtain ⟨hend, hnone⟩ := hpolls hpc
    obtain ⟨hc, he, hff⟩ := k.forBatch_eq hwf GroupStream.entryAt_of_mem_newBatch
    have hd : s.delivered p = (s.streams p).delivered := rfl
    have hmem (e : Priority × ℕ) : e ∈ (k.forBatch p ((s.streams p).newBatch k.count)).claims ↔
        e.1 = p ∧ s.delivered p < e.2 ∧ e.2 ≤ s.delivered p + (s.streams p).newCount k.count := by
      rw [hc, claims_newBatch, List.mem_map]
      constructor
      · rintro ⟨x, hx, rfl⟩
        have := List.mem_range'_1.mp hx
        exact ⟨rfl, by omega, by omega⟩
      · rintro ⟨rfl, h₁, h₂⟩
        exact ⟨e.2, List.mem_range'_1.mpr (by omega), rfl⟩
    refine ⟨hend, he, hff.mono fun _ _ _ h => by rwa [Server.entries_readNew], fun _ =>
      Server.entries_readNew .., Or.inr ⟨hnone, ?_, fun e h => ?_, fun e => ?_⟩⟩
    · rw [hc, claims_newBatch]
      exact List.Nodup.map (fun x y hxy => (Prod.mk.inj hxy).2) List.nodup_range'
    · obtain ⟨hp, h₁, h₂⟩ := (hmem e).mp h
      rintro ⟨-, h₃⟩
      rw [hp] at h₃
      omega
    · rw [hmem, Server.Issued, Server.Issued, Server.delivered_readNew]
      by_cases hp : e.1 = p
      · rw [if_pos hp]
        simp only [hp, true_and]
        omega
      · rw [if_neg hp]
        exact ⟨Or.inl, fun h => h.resolve_right fun h => hp h.1⟩
  | empty p left hpc hnil =>
    obtain ⟨hend, hnone⟩ := hpolls hpc
    refine ⟨hend, ?_, ?_, fun _ => Server.entries_readNew ..,
      Or.inl ⟨?_, hissued fun q => ?_⟩⟩
    · by_cases hl : left = [] <;> simp [Consumer.ended, hl]
    · intro m hm
      by_cases hl : left = [] <;> simp [hl] at hm
    · rw [hnone]
      by_cases hl : left = [] <;> simp [Consumer.claims, hl]
    · rw [Server.delivered_readNew, GroupStream.newBatch_eq_nil.mp hnil]
      split_ifs with hq
      · rw [hq, Nat.add_zero]
      · rfl
  | noTier hpc =>
    obtain ⟨hend, hnone⟩ := hpolls hpc
    exact ⟨hend, rfl, fun m hm => by simp at hm, fun _ => rfl, Or.inl ⟨hnone.symm, rfl⟩⟩
  | wake hpc =>
    refine ⟨by simp [Consumer.ended, hpc], rfl, fun m hm => by simp at hm, fun _ => rfl,
      Or.inl ⟨by simp [Consumer.claims, hpc], rfl⟩⟩
  | ack m hpc =>
    obtain ⟨hc, he, hff⟩ := Consumer.forBatch_eq { k with totalHandled := k.totalHandled + 1 } hwf
      (hf m (Or.inr hpc)).2
    refine ⟨by simp [Consumer.ended, hpc], he, hff.mono fun p id f h => ?_, fun p =>
      Server.entries_ack .., Or.inl ⟨?_, hissued fun p => Server.delivered_ack ..⟩⟩
    · exact (Server.entries_ack m.priority p m.id).symm ▸ h
    · rw [hc]
      simp [Consumer.claims, hpc]

namespace World

/-- The claims of the run with the number `i`. -/
def claims (w : World) (i : ℕ) : List (Priority × ℕ) :=
  match w.runs i with
  | some k => k.claims
  | none => []

def Handled (w : World) (e : Priority × ℕ) : Prop :=
  ∃ c t, Event.handled c e.1 e.2 t ∈ w.trace

/-- A run is not ended by a handler exception or a crash while it has claims. -/
def ClaimsKept (w : World) : Action → Prop
  | .handler i (some _) => w.claims i = []
  | .crash i => w.claims i = []
  | _ => True

/-- No run that has ended has claims. -/
def NoneStranded (w : World) : Prop :=
  ∀ i k, w.runs i = some k → k.ended = true → k.claims = []

structure ClaimInv (w : World) : Prop where
  wellFormed : w.server.WellFormed
  faithful : ∀ i k, w.runs i = some k → k.Faithful w.server
  traced : ∀ c p id t, Event.handled c p id t ∈ w.trace →
    ∃ f, entryAt (w.server.entries p) id = some f ∧ SupportTicket.fromFields f = .ok t
  claimed : Claimed w.claims w.Handled w.server.Issued

theorem claims_setRun_self (w : World) (i : ℕ) (k : Consumer) :
    (w.setRun i k).claims i = k.claims := by
  simp only [claims, setRun_self]

theorem claims_setRun_of_ne (w : World) {i j : ℕ} (h : j ≠ i) (k : Consumer) :
    (w.setRun i k).claims j = w.claims j := by
  simp only [claims, w.setRun_of_ne h]

theorem claims_eq {w : World} {i : ℕ} {k : Consumer} (hk : w.runs i = some k) :
    w.claims i = k.claims := by
  simp only [claims, hk]

theorem claims_setRun {w : World} {i : ℕ} {k : Consumer} (h : k.claims = w.claims i) :
    (w.setRun i k).claims = w.claims :=
  Slots.readout_eq ((w.claims_setRun_self i k).trans h) fun _ hj => w.claims_setRun_of_ne hj k

theorem faithful_setRun {w : World} {i : ℕ} {k : Consumer} {s : Server}
    (h : ∀ j l, w.runs j = some l → l.Faithful s) (hk : k.Faithful s) :
    ∀ j l, (w.setRun i k).runs j = some l → l.Faithful s :=
  Slots.forall_update h hk

theorem claimInv_init : ClaimInv {} where
  wellFormed p id f h := by
    cases id <;> simp [Server.entries, GroupStream.empty, entryAt] at h
  faithful i k hk := by cases hk
  traced c p id t h := by cases h
  claimed := by
    have hh : (({} : World).Handled) = fun _ => False := by
      funext e
      exact eq_false (by rintro ⟨c, t, h⟩; cases h)
    have hd : (({} : World).server.Issued) = fun _ => False := by
      funext e
      exact eq_false fun h => Nat.not_succ_le_zero 0 (h.1.trans h.2)
    rw [hh, hd]
    exact Claimed.empty

theorem claimInv_publish {w : World} (hi : ClaimInv w) (t : SupportTicket) :
    ClaimInv { w with server := w.server.publish t } := by
  have hle (p : Priority) (id : ℕ) (f : Fields) (h : entryAt (w.server.entries p) id = some f) :
      entryAt ((w.server.publish t).entries p) id = some f := by
    rw [Server.entries_publish]
    split_ifs
    · rwa [entryAt_append_of_le (entryAt_some_le h).2]
    · exact h
  refine ⟨fun p id f h => ?_, fun i k hk => (hi.faithful i k hk).mono hle,
    fun c p id t ht => ?_, ?_⟩
  · rw [Server.entries_publish] at h
    split_ifs at h
    · by_cases hid : id ≤ (w.server.entries p).length
      · rw [entryAt_append_of_le hid] at h
        exact hi.wellFormed p id f h
      · obtain rfl := eq_of_entryAt_append h hid
        exact ⟨t, t.fromFields_toFields⟩
    · exact hi.wellFormed p id f h
  · obtain ⟨f, hf, hft⟩ := hi.traced c p id t ht
    exact ⟨f, hle p id f hf, hft⟩
  · have hd : (w.server.publish t).Issued = w.server.Issued := by
      funext e
      rw [Server.Issued, Server.Issued, Server.delivered_publish]
    exact hd.symm ▸ hi.claimed

theorem claimInv_run {w : World} (hi : ClaimInv w) {i : ℕ} {k k' : Consumer} {s' : Server}
    (hk : w.runs i = some k) (hm : Move k w.server k' s') : ClaimInv (w.moved i k' s' []) := by
  obtain ⟨-, -, hf, hent, hcases⟩ := hm.claims_cases hi.wellFormed (hi.faithful i k hk)
  have hwf : s'.WellFormed := fun p id f h => hi.wellFormed p id f (hent p ▸ h)
  have htr : (w.moved i k' s' []).trace = w.trace := List.append_nil _
  have hh : (w.moved i k' s' []).Handled = w.Handled := by
    unfold Handled
    rw [htr]
  refine ⟨hwf, faithful_setRun (fun j l hl => (hi.faithful j l hl).mono fun p id f h => ?_) hf,
    fun c p id t ht => ?_, ?_⟩
  · change entryAt (s'.entries p) id = some f
    rwa [hent]
  · change ∃ f, entryAt (s'.entries p) id = some f ∧ _
    rw [hent]
    exact hi.traced c p id t (htr ▸ ht)
  · rw [hh]
    rcases hcases with ⟨hc, hd⟩ | ⟨hnone, hnodup, hnew, hissued⟩
    · have hc' : (w.moved i k' s' []).claims = w.claims :=
        claims_setRun (hc.trans (claims_eq hk).symm)
      have hd' : (w.moved i k' s' []).server.Issued = w.server.Issued := hd
      rw [hc', hd']
      exact hi.claimed
    · exact hi.claimed.issue ((claims_eq hk).trans hnone)
        (fun j hj => w.claims_setRun_of_ne hj k') (w.claims_setRun_self i k') hnodup hnew hissued

theorem claimInv_returns {w : World} (hi : ClaimInv w) {i : ℕ} {k : Consumer} {m : Held}
    (hk : w.runs i = some k) (hpc : k.pc = .handler m) :
    ClaimInv (w.moved i { k with pc := .ack m } w.server
      [.handled k.consumerId m.priority m.id m.ticket]) := by
  have hff := hi.faithful i k hk m (Or.inl hpc)
  refine ⟨hi.wellFormed, faithful_setRun hi.faithful fun n hn => ?_, fun c p id t ht => ?_, ?_⟩
  · obtain rfl : m = n := by simpa using hn
    exact hff
  · rcases List.mem_append.mp ht with ht | ht
    · exact hi.traced c p id t ht
    · cases List.mem_singleton.mp ht
      exact hff.1
  · have hcl : w.claims i = (m.priority, m.id) :: claimsOf m.priority m.rest := by
      rw [claims_eq hk, Consumer.claims, hpc]
    refine hi.claimed.complete hcl (fun j hj => w.claims_setRun_of_ne hj _)
      (w.claims_setRun_self i _) fun e => ?_
    obtain ⟨q, n⟩ := e
    constructor
    · rintro ⟨c, t, ht⟩
      rcases List.mem_append.mp ht with ht | ht
      · exact Or.inl ⟨c, t, ht⟩
      · cases List.mem_singleton.mp ht
        exact Or.inr rfl
    · rintro (⟨c, t, ht⟩ | he)
      · exact ⟨c, t, List.mem_append_left _ ht⟩
      · cases he
        exact ⟨_, _, List.mem_append_right _ List.mem_cons_self⟩

theorem claimInv_step (w : World) (a : Action) (w' : World) (hi : ClaimInv w)
    (h : step w a = some w') : ClaimInv w' := by
  cases Effect.of_step h with
  | publish t => exact claimInv_publish hi t
  | start _ i k ha hnone hpc =>
    have hc : (w.setRun i k).claims = w.claims :=
      claims_setRun (by simp [Consumer.claims, hpc, claims, hnone])
    exact ⟨hi.wellFormed, faithful_setRun hi.faithful fun m hm => by simp [hpc] at hm, hi.traced,
      hc.symm ▸ hi.claimed⟩
  | stop i k hk hpc =>
    have hc : (w.setRun i { k with pc := .returned }).claims = w.claims :=
      claims_setRun (by simp [Consumer.claims, hpc, claims_eq hk])
    exact ⟨hi.wellFormed, faithful_setRun hi.faithful fun m hm => by simp at hm, hi.traced,
      hc.symm ▸ hi.claimed⟩
  | run i k k' s' hk hm => exact claimInv_run hi hk hm
  | returns i k m hk hpc => exact claimInv_returns hi hk hpc
  | raises i k m e hk hpc =>
    have hc : (w.moved i { k with pc := .raised e k.claims } w.server []).claims = w.claims :=
      claims_setRun (claims_eq hk).symm
    have htr : (w.moved i { k with pc := .raised e k.claims } w.server []).trace = w.trace :=
      List.append_nil _
    refine ⟨hi.wellFormed, faithful_setRun hi.faithful fun m hm => by simp at hm, ?_, ?_⟩
    · rw [htr]
      exact hi.traced
    · unfold Handled
      rw [htr, hc]
      exact hi.claimed
  | crash i k hk hend =>
    have hc : (w.setRun i { k with pc := .crashed k.claims }).claims = w.claims :=
      claims_setRun (claims_eq hk).symm
    exact ⟨hi.wellFormed, faithful_setRun hi.faithful fun m hm => by simp at hm, hi.traced,
      hc.symm ▸ hi.claimed⟩

theorem noneStranded_setRun {w : World} {i : ℕ} {k : Consumer}
    (hlive : ∀ l, w.runs i = some l → l.ended = false) :
    (w.setRun i k).NoneStranded ↔ w.NoneStranded ∧ (k.ended = true → k.claims = []) := by
  have hself := w.setRun_self i k
  have hother {j : ℕ} (hj : j ≠ i) := w.setRun_of_ne hj k
  constructor
  · intro h
    refine ⟨fun j l hl hend => ?_, h i k hself⟩
    by_cases hj : j = i
    · subst hj
      rw [hlive l hl] at hend
      cases hend
    · exact h j l ((hother hj).trans hl) hend
  · rintro ⟨h, hk⟩ j l hl hend
    by_cases hj : j = i
    · subst hj
      obtain rfl := Option.some.inj (hself.symm.trans hl)
      exact hk hend
    · exact h j l ((hother hj).symm.trans hl) hend

theorem noneStranded_moved {w : World} {i : ℕ} {k : Consumer} {s : Server} {evs : List Event}
    (hlive : ∀ l, w.runs i = some l → l.ended = false) :
    (w.moved i k s evs).NoneStranded ↔ w.NoneStranded ∧ (k.ended = true → k.claims = []) :=
  noneStranded_setRun hlive

theorem noneStranded_step (w : World) (a : Action) (w' : World) (hi : ClaimInv w)
    (h : step w a = some w') : w'.NoneStranded ↔ w.NoneStranded ∧ w.ClaimsKept a := by
  have hlive {i : ℕ} {k : Consumer} (hk : w.runs i = some k) (hend : k.ended = false) :
      ∀ l, w.runs i = some l → l.ended = false := by
    intro l hl
    obtain rfl := Option.some.inj (hk.symm.trans hl)
    exact hend
  cases Effect.of_step h with
  | publish t => exact (and_iff_left trivial).symm
  | start _ i k ha hnone hpc =>
    have hend : k.ended = false := by simp [Consumer.ended, hpc]
    rw [noneStranded_setRun (by simp [hnone])]
    have hkept : w.ClaimsKept a := by
      cases a with
      | handler _ _ => exact absurd ha id
      | crash _ => exact absurd ha id
      | _ => trivial
    simp [hend, hkept]
  | stop i k hk hpc =>
    rw [noneStranded_setRun (hlive hk (by simp [Consumer.ended, hpc]))]
    simp [Consumer.claims, ClaimsKept]
  | run i k k' s' hk hm =>
    obtain ⟨hend, hend', -⟩ := hm.claims_cases hi.wellFormed (hi.faithful i k hk)
    rw [noneStranded_moved (hlive hk hend)]
    simp [hend', ClaimsKept]
  | returns i k m hk hpc =>
    rw [noneStranded_moved (hlive hk (by simp [Consumer.ended, hpc]))]
    simp [Consumer.ended, ClaimsKept]
  | raises i k m e hk hpc =>
    rw [noneStranded_moved (hlive hk (by simp [Consumer.ended, hpc])), ClaimsKept, claims_eq hk]
    simp [Consumer.ended, Consumer.claims]
  | crash i k hk hend =>
    rw [noneStranded_setRun (hlive hk hend), ClaimsKept, claims_eq hk]
    simp [Consumer.ended, Consumer.claims]

/-- What may happen in the last phase: no publishing, no crash and no failing handler. -/
def Succeeds : Action → Prop
  | .publish _ => False
  | .handler _ (some _) => False
  | .crash _ => False
  | _ => True

/-- Every tier is read out and every live run has worked off what it claimed. -/
def Quiescent (w : World) : Prop :=
  (∀ p, w.server.delivered p = (w.server.entries p).length) ∧
    ∀ i k, w.runs i = some k → ∀ m, k.pc ≠ .handler m ∧ k.pc ≠ .ack m

def AllHandled (w : World) : Prop :=
  ∀ p id f, entryAt (w.server.entries p) id = some f →
    ∃ c t, SupportTicket.fromFields f = .ok t ∧ Event.handled c p id t ∈ w.trace

theorem ClaimInv.allHandled_iff {w : World} (hi : ClaimInv w) (hq : w.Quiescent) :
    w.AllHandled ↔ w.NoneStranded := by
  constructor
  · intro hall i k hk hend
    rw [List.eq_nil_iff_forall_not_mem]
    rintro ⟨p, id⟩ he
    obtain ⟨⟨h₁, h₂⟩, hnot⟩ := hi.claimed.held i (p, id) (claims_eq hk ▸ he)
    obtain ⟨f, hf⟩ := entryAt_isSome h₁ (hq.1 p ▸ h₂)
    obtain ⟨c, t, -, ht⟩ := hall p id f hf
    exact hnot ⟨c, t, ht⟩
  · intro hnone p id f hf
    have hr := entryAt_some_le hf
    rcases hi.claimed.cover (p, id) ⟨hr.1, hq.1 p ▸ hr.2⟩ with ⟨c, t, ht⟩ | ⟨i, he⟩
    · obtain ⟨g, hg, hgt⟩ := hi.traced c p id t ht
      obtain rfl := Option.some.inj (hf.symm.trans hg)
      exact ⟨c, t, hgt, ht⟩
    · exfalso
      cases hk : w.runs i with
      | none => simp [claims, hk] at he
      | some k =>
        rw [claims_eq hk] at he
        by_cases hend : k.ended = true
        · rw [hnone i k hk hend] at he
          cases he
        · rw [k.claims_of_live (by simpa using hend) (hq.2 i k hk)] at he
          cases he

theorem along_succeeds {acts : List Action} (h : ∀ a ∈ acts, Succeeds a) (w : World) :
    Along step ClaimsKept w acts := by
  refine along_of_forall (fun a ha w => ?_) w
  have hs := h a ha
  cases a with
  | handler i failure =>
    cases failure with
    | none => trivial
    | some e => exact absurd hs id
  | crash i => exact absurd hs id
  | _ => trivial

/-- After any history and any last phase that leaves nothing to claim, every published ticket has
been handled exactly if no run of the history was ended while it had claims. -/
theorem allHandled_iff_claims_kept (history final : List Action) (u w : World)
    (hhistory : run step {} history = some u) (hfinal : run step u final = some w)
    (hsucceeds : ∀ a ∈ final, Succeeds a) (hquiet : w.Quiescent) :
    w.AllHandled ↔ Along step ClaimsKept {} history := by
  have hu : ClaimInv u := run_invariant_of_step claimInv_step claimInv_init hhistory
  have hw : ClaimInv w := run_invariant_of_step claimInv_step hu hfinal
  rw [hw.allHandled_iff hquiet, iff_and_along claimInv_step noneStranded_step hu hfinal,
    and_iff_left (along_succeeds hsucceeds u),
    iff_and_along claimInv_step noneStranded_step claimInv_init hhistory]
  exact and_iff_right fun i k hk => by cases hk

def fraudAlert : SupportTicket := ⟨"T-001", "FRAUD ALERT", .high, "C-1"⟩

/-- The run dies with the ticket in its handler, and another run finds nothing to claim. -/
def crashInHandler : List Action :=
  [.publish fraudAlert, .runConsumer 0 .high "high-agent-0" 10, .run 0, .crash 0]

theorem crashInHandler_not_allHandled :
    ∃ u w, run step {} crashInHandler = some u ∧
      run step u [.runStrictPriorityConsumer 1 "agent-1" none 10, .run 1, .run 1, .run 1] = some w ∧
      w.Quiescent ∧ ¬ w.AllHandled := by
  refine ⟨_, _, rfl, rfl, ⟨fun p => by cases p <;> rfl, fun i k hk m => ?_⟩, fun h => ?_⟩
  · match i with
    | 0 =>
      cases hk
      exact ⟨nofun, nofun⟩
    | 1 =>
      cases hk
      exact ⟨nofun, nofun⟩
    | i + 2 => cases hk
  · obtain ⟨c, t, -, ht⟩ := h .high 1 (encodeFields fraudAlert.toFields) rfl
    cases ht

/-- The run dies before it claims the ticket. -/
def crashBeforeClaim : List Action :=
  [.publish fraudAlert, .runConsumer 0 .high "high-agent-0" 10, .crash 0]

/-- Another run claims and handles the ticket. -/
def successor : List Action :=
  [.runConsumer 1 .high "high-agent-1" 10, .run 1, .handler 1 none, .run 1]

theorem crashBeforeClaim_allHandled_iff :
    ∃ u w, run step {} crashBeforeClaim = some u ∧ run step u successor = some w ∧
      (w.AllHandled ↔ Along step ClaimsKept {} crashBeforeClaim) := by
  refine ⟨_, _, rfl, rfl, allHandled_iff_claims_kept crashBeforeClaim successor _ _ rfl rfl
    (by simp [successor, Succeeds]) ⟨fun p => by cases p <;> rfl, fun i k hk m => ?_⟩⟩
  match i with
  | 0 =>
    cases hk
    exact ⟨nofun, nofun⟩
  | 1 =>
    cases hk
    exact ⟨nofun, nofun⟩
  | i + 2 => cases hk

end World
end PriorityQueue
