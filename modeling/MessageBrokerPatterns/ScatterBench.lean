import MessageBrokerPatterns.ScatterGather
import Mathlib.Data.List.Nodup
import Mathlib.Data.List.Perm.Subperm

/-!
# Searches that share one response queue

`bench_fanout_timeout` subscribes one response queue for all its searches. With `--concurrency` above one
several `gather`s take quotes off that queue, and each of them discards what is not its own, the quotes of
the others included. A turn of a `gather` loop that takes a quote is a step, and a loop may end at any time:
it is full, or its deadline has passed. An airline listens to a topic of its own and answers its requests one
after the other, each at any time after it was published.

Each quote of each search is somewhere: it has yet to be published, it lies on the queue, it was discarded or
its search has it. A discarded quote is marked as stolen when its search still waits for it.
-/

namespace ScatterGather.Bench
open PyText ActionRun

def depart : ℤ := 1785576600

/-- `_make_lookup`. -/
def makeLookup (airline : String) (priceCents : ℤ) (request : SearchRequest) : FlightQuote where
  correlationId := request.correlationId
  airline
  flightNumber := airline.toUpper ++ pyStr (priceCents / 100)
  priceCents
  departAt := depart

def airlineName (index : ℕ) : String := "air" ++ zeroPad 2 index

/-- The lookup of an airline of `_build_airlines`. -/
def lookup (index : ℕ) : SearchRequest → FlightQuote := makeLookup (airlineName index) (10000 + index * 100)

def correlationId (n : ℕ) : String := "bench-search-" ++ zeroPad 6 n

def request (n : ℕ) (createdAt : ℤ) : SearchRequest where
  correlationId := correlationId n
  origin := "New York (JFK)"
  destination := "Los Angeles (LAX)"
  departureDate := "2026-08-01"
  passengers := 1
  createdAt

/-- A search that gathers, or has gathered, its quotes. -/
structure Gathering where
  request : SearchRequest
  quotes : List FlightQuote := []
  deriving DecidableEq

def Gathering.id (g : Gathering) : String := g.request.correlationId

structure Discard where
  quote : FlightQuote
  stolen : Bool

structure State where
  searches : ℕ := 0
  requests : ℕ → List SearchRequest := fun _ => []
  responseQueue : List FlightQuote := []
  gathering : List Gathering := []
  ended : List Gathering := []
  discarded : List Discard := []

inductive Action where
  | oneSearch (createdAt : ℤ)
  | answer (index : ℕ)
  | take (i : ℕ)
  | ends (i : ℕ)

variable (fanout concurrency : ℕ)

def step (w : State) : Action → Option State
  | .oneSearch createdAt =>
      if w.gathering.length < concurrency then
        let request := request (w.searches + 1) createdAt
        some { w with
          searches := w.searches + 1
          requests := fun index =>
            if index < fanout then w.requests index ++ [request] else w.requests index
          gathering := w.gathering ++ [{ request }] }
      else none
  | .answer index =>
      match w.requests index with
      | [] => none
      | request :: rest => some { w with
          requests := Function.update w.requests index rest
          responseQueue := w.responseQueue ++ [lookup index request] }
  | .take i =>
      match w.gathering[i]?, w.responseQueue with
      | some g, quote :: rest =>
          if g.quotes.length < fanout then
            if quote.correlationId ≠ g.request.correlationId then
              let stolen := w.gathering.any fun h => h.id = quote.correlationId
              some { w with responseQueue := rest, discarded := w.discarded ++ [⟨quote, stolen⟩] }
            else some { w with
              responseQueue := rest
              gathering := w.gathering.set i { g with quotes := g.quotes ++ [quote] } }
          else none
      | _, _ => none
  | .ends i =>
      match w.gathering[i]? with
      | some g => some { w with gathering := w.gathering.eraseIdx i, ended := w.ended ++ [g] }
      | none => none

/-- The list `collected`, one count for each search that has ended. -/
def State.collected (w : State) : List ℕ := w.ended.map fun g => g.quotes.length

/-- What the report adds to the result of `run_bench`; the fraction and the mean are of these numbers. -/
structure Extra where
  expectedQuotes : ℕ
  collectedQuotes : ℕ
  partialGathers : ℕ
  deriving DecidableEq, Repr

/-- `collected[-ops:]`. -/
def measured (ops : ℕ) (collected : List ℕ) : List ℕ :=
  if ops = 0 then collected else collected.drop (collected.length - ops)

def extra (ops : ℕ) (collected : List ℕ) : Extra where
  expectedQuotes := ops * fanout
  collectedQuotes := (measured ops collected).sum
  partialGathers := (measured ops collected).countP fun count => count < fanout

def asked (request : SearchRequest) : List FlightQuote :=
  (List.range fanout).map fun index => lookup index request

namespace State

def all (w : State) : List Gathering := w.gathering ++ w.ended

def unanswered (w : State) : List FlightQuote :=
  (List.range fanout).flatMap fun index => (w.requests index).map (lookup index)

def astray (w : State) : List FlightQuote :=
  w.unanswered fanout ++ w.responseQueue ++ w.discarded.map Discard.quote

def stolen (w : State) : List FlightQuote := (w.discarded.filter Discard.stolen).map Discard.quote

end State

def tagged (id : String) (quotes : List FlightQuote) : List FlightQuote :=
  quotes.filter fun quote => quote.correlationId = id

theorem tagged_append (id : String) (l l' : List FlightQuote) :
    tagged id (l ++ l') = tagged id l ++ tagged id l' := List.filter_append ..

theorem tagged_eq_self {id : String} {l : List FlightQuote} (h : ∀ q ∈ l, q.correlationId = id) :
    tagged id l = l := List.filter_eq_self.mpr fun q hq => decide_eq_true (h q hq)

theorem tagged_eq_nil {id : String} {l : List FlightQuote} (h : ∀ q ∈ l, q.correlationId ≠ id) :
    tagged id l = [] := List.filter_eq_nil_iff.mpr fun q hq => by simpa using h q hq

theorem asked_tagged (request : SearchRequest) :
    ∀ q ∈ asked fanout request, q.correlationId = request.correlationId := by
  intro q hq
  obtain ⟨index, -, rfl⟩ := List.mem_map.mp hq
  rfl

theorem correlationId_injective : Function.Injective correlationId := by
  intro m n h
  exact zeroPad_injective 6 (by simpa [correlationId] using h)

theorem asked_nodup (request : SearchRequest) : (asked fanout request).Nodup := by
  refine List.nodup_range.map fun i j h => zeroPad_injective 2 ?_
  have hname : airlineName i = airlineName j := congrArg FlightQuote.airline h
  simpa [airlineName] using hname

/-- Every quote of a search is somewhere, once, and a search has none but its own. -/
structure Inv (w : State) : Prop where
  account : (w.astray fanout ++ w.all.flatMap Gathering.quotes).Perm
    (w.all.flatMap fun g => asked fanout g.request)
  ids : (w.all.map Gathering.id).Perm ((List.range w.searches).map fun n => correlationId (n + 1))
  own : ∀ g ∈ w.all, ∀ q ∈ g.quotes, q.correlationId = g.id
  idle : ∀ index, fanout ≤ index → w.requests index = []
  given : ∀ d ∈ w.discarded, d.stolen = false → ∃ g ∈ w.ended, g.id = d.quote.correlationId

/-- The list as its `i`-th element and the others. -/
theorem perm_of_getElem? {α : Type*} {l : List α} {i : ℕ} {a : α} (h : l[i]? = some a) :
    l.Perm (a :: l.eraseIdx i) ∧ ∀ b, (l.set i b).Perm (b :: l.eraseIdx i) := by
  obtain ⟨hi, rfl⟩ := List.getElem?_eq_some_iff.mp h
  exact ⟨(List.getElem_cons_eraseIdx_perm hi).symm, fun b => List.set_perm_cons_eraseIdx hi b⟩

theorem flatMap_perm_cons {α β : Type*} [DecidableEq α] {l : List α} {f f' : α → List β} {a : α} {x : β}
    (hl : l.Nodup) (ha : a ∈ l) (hx : f a = x :: f' a) (hother : ∀ b, b ≠ a → f b = f' b) :
    (l.flatMap f).Perm (x :: l.flatMap f') := by
  have hrest : (l.erase a).flatMap f = (l.erase a).flatMap f' := by
    refine List.flatMap_congr fun b hb => hother b ?_
    rintro rfl
    exact hl.not_mem_erase hb
  have hfront : (l.flatMap f).Perm (f a ++ (l.erase a).flatMap f) :=
    (List.perm_cons_erase ha).flatMap_right f
  have hback : (l.flatMap f').Perm (f' a ++ (l.erase a).flatMap f') :=
    (List.perm_cons_erase ha).flatMap_right f'
  rw [hx, hrest] at hfront
  exact hfront.trans (hback.symm.cons x)

section Steps
variable {fanout concurrency} {w : State}

theorem Inv.ids_nodup (h : Inv fanout w) : (w.all.map Gathering.id).Nodup := by
  refine h.ids.nodup_iff.mpr (List.nodup_range.map fun m n hmn => ?_)
  exact Nat.succ_injective (correlationId_injective hmn)

theorem Inv.exists_search (h : Inv fanout w) {q : FlightQuote} (hq : q ∈ w.astray fanout) :
    ∃ g ∈ w.all, g.id = q.correlationId := by
  obtain ⟨g, hg, hmem⟩ := List.mem_flatMap.mp (h.account.subset (List.mem_append_left _ hq))
  exact ⟨g, hg, (asked_tagged fanout g.request q hmem).symm⟩

theorem tagged_flatMap {l : List Gathering} {f : Gathering → List FlightQuote} {g : Gathering}
    (hids : (l.map Gathering.id).Nodup) (hf : ∀ o ∈ l, ∀ q ∈ f o, q.correlationId = o.id) (hg : g ∈ l) :
    (tagged g.id (l.flatMap f)).Perm (f g) := by
  have hperm := List.perm_cons_erase hg
  have hothers : ∀ o ∈ l.erase g, o.id ≠ g.id := by
    intro o ho heq
    have hnd := (hperm.map Gathering.id).nodup_iff.mp hids
    exact (List.nodup_cons.mp hnd).1 (heq ▸ List.mem_map_of_mem ho)
  have hnil : tagged g.id ((l.erase g).flatMap f) = [] := by
    refine tagged_eq_nil fun q hq heq => ?_
    obtain ⟨o, ho, hqo⟩ := List.mem_flatMap.mp hq
    exact hothers o ho ((hf o (List.mem_of_mem_erase ho) q hqo).symm.trans heq)
  have hsplit := (hperm.flatMap_right f).filter fun q => decide (q.correlationId = g.id)
  rw [List.flatMap_cons, List.filter_append] at hsplit
  refine hsplit.trans ?_
  rw [show (f g).filter _ = f g from tagged_eq_self (hf g hg),
    show ((l.erase g).flatMap f).filter _ = [] from hnil, List.append_nil]

theorem Inv.search_account (h : Inv fanout w) {g : Gathering} (hg : g ∈ w.all) :
    (asked fanout g.request).Perm (g.quotes ++ tagged g.id (w.astray fanout)) := by
  have hasked : (tagged g.id (w.all.flatMap fun o => asked fanout o.request)).Perm
      (asked fanout g.request) :=
    tagged_flatMap h.ids_nodup (fun o _ => asked_tagged fanout o.request) hg
  have hkept : (tagged g.id (w.all.flatMap Gathering.quotes)).Perm g.quotes :=
    tagged_flatMap h.ids_nodup h.own hg
  have hall := h.account.filter fun q => decide (q.correlationId = g.id)
  rw [List.filter_append] at hall
  exact hasked.symm.trans (hall.symm.trans (List.perm_append_comm.trans (hkept.append_right _)))

theorem all_perm {i : ℕ} {g : Gathering} (hg : w.gathering[i]? = some g) :
    w.all.Perm (g :: (w.gathering.eraseIdx i ++ w.ended)) :=
  (perm_of_getElem? hg).1.append_right _

theorem Inv.of_perm {w' : State} (h : Inv fanout w)
    (hall : (w'.all.map Gathering.request).Perm (w.all.map Gathering.request))
    (hsearches : w'.searches = w.searches)
    (hplaces : (w'.astray fanout ++ w'.all.flatMap Gathering.quotes).Perm
      (w.astray fanout ++ w.all.flatMap Gathering.quotes))
    (hown : ∀ g ∈ w'.all, ∀ q ∈ g.quotes, q.correlationId = g.id)
    (hidle : ∀ index, fanout ≤ index → w'.requests index = [])
    (hgiven : ∀ d ∈ w'.discarded, d.stolen = false → ∃ g ∈ w'.ended, g.id = d.quote.correlationId) :
    Inv fanout w' where
  account := by
    have hasked (l : List Gathering) : (l.flatMap fun g => asked fanout g.request) =
        (l.map Gathering.request).flatMap (asked fanout) := (List.flatMap_map ..).symm
    rw [hasked]
    have hacc := h.account
    rw [hasked] at hacc
    exact hplaces.trans (hacc.trans (hall.symm.flatMap_right _))
  ids := by
    have hid (l : List Gathering) : l.map Gathering.id =
        (l.map Gathering.request).map SearchRequest.correlationId := List.map_map.symm
    have hids := h.ids
    rw [hid] at hids
    rw [hid, hsearches]
    exact (hall.map _).trans hids
  own := hown
  idle := hidle
  given := hgiven

theorem Inv.oneSearch (h : Inv fanout w) (createdAt : ℤ) : Inv fanout { w with
    searches := w.searches + 1
    requests := fun index => if index < fanout then
      w.requests index ++ [request (w.searches + 1) createdAt] else w.requests index
    gathering := w.gathering ++ [{ request := request (w.searches + 1) createdAt }] } := by
  have hall (g : Gathering) : (w.gathering ++ [g] ++ w.ended).Perm (g :: w.all) := by
    rw [List.append_assoc, List.singleton_append]
    exact List.perm_middle
  have hunanswered : ((List.range fanout).flatMap fun index =>
      (if index < fanout then w.requests index ++ [request (w.searches + 1) createdAt]
        else w.requests index).map (lookup index)).Perm
      (w.unanswered fanout ++ asked fanout (request (w.searches + 1) createdAt)) := by
    have hcongr : ((List.range fanout).flatMap fun index =>
        (if index < fanout then w.requests index ++ [request (w.searches + 1) createdAt]
          else w.requests index).map (lookup index)) =
        (List.range fanout).flatMap fun index => (w.requests index).map (lookup index) ++
          [lookup index (request (w.searches + 1) createdAt)] := by
      refine List.flatMap_congr fun index hindex => ?_
      rw [if_pos (List.mem_range.mp hindex), List.map_append]
      rfl
    rw [hcongr, asked, List.map_eq_flatMap]
    exact (List.flatMap_append_perm ..).symm
  refine ⟨?_, ?_, ?_, fun index hindex => ?_, h.given⟩
  · have hkept := (hall { request := request (w.searches + 1) createdAt }).flatMap_right Gathering.quotes
    have hasked := (hall { request := request (w.searches + 1) createdAt }).flatMap_right
      fun g => asked fanout g.request
    have hplaces := ((hunanswered.append_right w.responseQueue).append_right
      (w.discarded.map Discard.quote)).append hkept
    have hfront (A U Q D K : List FlightQuote) :
        (U ++ A ++ Q ++ D ++ K).Perm (A ++ (U ++ Q ++ D ++ K)) := by
      simpa only [List.append_assoc] using List.perm_append_comm.append_right (Q ++ D ++ K)
    exact hplaces.trans ((hfront ..).trans ((h.account.append_left _).trans hasked.symm))
  · refine ((hall _).map Gathering.id).trans ?_
    rw [List.range_succ, List.map_append]
    exact (h.ids.cons _).trans (List.perm_append_singleton _ _).symm
  · intro g hg
    rcases List.mem_cons.mp ((hall _).subset hg) with rfl | hg
    · intro q hq
      cases hq
    · exact h.own g hg
  · change (if index < fanout then _ else _) = []
    rw [if_neg (not_lt.mpr hindex)]
    exact h.idle index hindex

theorem Inv.answer (h : Inv fanout w) {index : ℕ} {request : SearchRequest} {rest : List SearchRequest}
    (hrequests : w.requests index = request :: rest) : Inv fanout { w with
      requests := Function.update w.requests index rest
      responseQueue := w.responseQueue ++ [lookup index request] } := by
  have hindex : index < fanout := by
    by_contra hge
    rw [h.idle index (not_lt.mp hge)] at hrequests
    cases hrequests
  have hunanswered : (w.unanswered fanout).Perm (lookup index request ::
      (List.range fanout).flatMap fun j => (Function.update w.requests index rest j).map (lookup j)) := by
    refine flatMap_perm_cons List.nodup_range (List.mem_range.mpr hindex) ?_ fun j hj => ?_
    · rw [hrequests, Function.update_self]
      rfl
    · rw [Function.update_of_ne hj]
  refine h.of_perm .rfl rfl ?_ h.own (fun j hj => ?_) h.given
  · refine List.Perm.append_right _ (List.Perm.append_right _ ?_)
    refine List.Perm.trans ?_ (hunanswered.symm.append_right _)
    rw [← List.append_assoc]
    exact List.perm_append_comm
  · change Function.update w.requests index rest j = []
    rw [Function.update_of_ne (by omega)]
    exact h.idle j hj

theorem Inv.keep (h : Inv fanout w) {i : ℕ} {g : Gathering} {quote : FlightQuote}
    {rest : List FlightQuote} (hg : w.gathering[i]? = some g) (hqueue : w.responseQueue = quote :: rest)
    (hmatch : quote.correlationId = g.id) : Inv fanout { w with
      responseQueue := rest
      gathering := w.gathering.set i { g with quotes := g.quotes ++ [quote] } } := by
  obtain ⟨hold, hnew⟩ := perm_of_getElem? hg
  have hown := h.own g (List.mem_append_left _ (List.mem_of_getElem? hg))
  refine h.of_perm ?_ rfl ?_ ?_ h.idle h.given
  · have hrequests := (hold.append_right w.ended).symm.map Gathering.request
    exact (((hnew _).append_right w.ended).map Gathering.request).trans hrequests
  · rw [List.perm_iff_count]
    intro q
    have hbefore := ((hold.append_right w.ended).flatMap_right Gathering.quotes).count_eq q
    have hafter := (((hnew { g with quotes := g.quotes ++ [quote] }).append_right w.ended).flatMap_right
      Gathering.quotes).count_eq q
    simp only [State.astray, State.all, hqueue, List.flatMap_cons, List.cons_append, List.count_append,
      List.count_cons, List.count_nil] at hbefore hafter ⊢
    change List.count q (w.unanswered fanout) + _ + _ + _ = _
    omega
  · intro o ho
    rcases List.mem_cons.mp (((hnew _).append_right w.ended).subset ho) with rfl | ho
    · intro q hq
      rcases List.mem_append.mp hq with hq | hq
      · exact hown q hq
      · rw [List.mem_singleton.mp hq]
        exact hmatch
    · exact h.own o ((hold.append_right w.ended).symm.subset (List.mem_cons_of_mem _ ho))

theorem Inv.discard (h : Inv fanout w) {quote : FlightQuote} {rest : List FlightQuote}
    (hqueue : w.responseQueue = quote :: rest) : Inv fanout { w with
      responseQueue := rest
      discarded := w.discarded ++
        [⟨quote, w.gathering.any fun g => g.id = quote.correlationId⟩] } := by
  refine h.of_perm .rfl rfl (List.Perm.append_right _ ?_) h.own h.idle fun d hd hkept => ?_
  · rw [State.astray, State.astray, hqueue, List.map_append, List.append_assoc, List.append_assoc]
    refine List.Perm.append_left _ ?_
    rw [← List.append_assoc]
    exact List.perm_append_comm
  · rcases List.mem_append.mp hd with hd | hd
    · exact h.given d hd hkept
    · obtain rfl := List.mem_singleton.mp hd
      have hastray : quote ∈ w.astray fanout := by simp [State.astray, hqueue]
      obtain ⟨g, hg, hid⟩ := h.exists_search hastray
      refine ⟨g, (List.mem_append.mp hg).resolve_left fun hgathering => ?_, hid⟩
      exact List.any_eq_false.mp hkept g hgathering (decide_eq_true hid)

theorem Inv.ends (h : Inv fanout w) {i : ℕ} {g : Gathering} (hg : w.gathering[i]? = some g) :
    Inv fanout { w with gathering := w.gathering.eraseIdx i, ended := w.ended ++ [g] } := by
  have hall : (w.gathering.eraseIdx i ++ (w.ended ++ [g])).Perm w.all := by
    refine List.Perm.trans ?_ (all_perm hg).symm
    rw [← List.append_assoc]
    exact List.perm_append_comm
  refine h.of_perm (hall.map _) rfl ((hall.flatMap_right _).append_left _) (fun o ho => ?_) h.idle
    fun d hd hkept => ?_
  · exact h.own o (hall.subset ho)
  · obtain ⟨o, ho, hid⟩ := h.given d hd hkept
    exact ⟨o, List.mem_append_left _ ho, hid⟩

theorem inv_step {w' : State} {a : Action} (h : Inv fanout w) (hw : step fanout concurrency w a = some w') :
    Inv fanout w' := by
  cases a with
  | oneSearch createdAt =>
    simp only [step] at hw
    split_ifs at hw
    cases hw
    exact h.oneSearch createdAt
  | answer index =>
    simp only [step] at hw
    split at hw
    · cases hw
    · rename_i request rest hrequests
      cases hw
      exact h.answer hrequests
  | take i =>
    simp only [step] at hw
    split at hw
    · rename_i g quote rest hg hqueue
      split_ifs at hw with hroom hforeign
      · cases hw
        exact h.discard hqueue
      · cases hw
        exact h.keep hg hqueue (not_not.mp hforeign)
    · cases hw
  | ends i =>
    simp only [step] at hw
    split at hw
    · rename_i g hg
      cases hw
      exact h.ends hg
    · cases hw

theorem inv_start : Inv fanout {} where
  account := by
    have hnone : (State.unanswered fanout {}) = [] := List.flatMap_eq_nil_iff.mpr fun _ _ => rfl
    rw [State.astray, hnone]
    exact .rfl
  ids := .rfl
  own := nofun
  idle _ _ := rfl
  given := nofun

/-- With one search at a time nothing is stolen. -/
def Lone (w : State) : Prop := w.gathering.length ≤ 1 ∧ ∀ d ∈ w.discarded, d.stolen = false

theorem lone_start : Lone {} := ⟨Nat.zero_le 1, fun _ hd => (by cases hd)⟩

theorem lone_step {w' : State} {a : Action} (h : Lone w) (hw : step fanout 1 w a = some w') : Lone w' := by
  obtain ⟨hone, hkept⟩ := h
  cases a with
  | oneSearch createdAt =>
    simp only [step] at hw
    split_ifs at hw with hroom
    cases hw
    refine ⟨?_, hkept⟩
    rw [List.length_append, List.length_singleton]
    omega
  | answer index =>
    simp only [step] at hw
    split at hw
    · cases hw
    · cases hw
      exact ⟨hone, hkept⟩
  | take i =>
    simp only [step] at hw
    split at hw
    · rename_i g quote rest hg hqueue
      split_ifs at hw with hroom hforeign
      · cases hw
        refine ⟨hone, fun d hd => ?_⟩
        rcases List.mem_append.mp hd with hd | hd
        · exact hkept d hd
        · rw [List.mem_singleton.mp hd]
          refine List.any_eq_false.mpr fun o ho => ?_
          -- the search that discards the quote is the only one
          have hsame : o = g := by
            obtain ⟨x, hx⟩ := List.length_eq_one_iff.mp
              (le_antisymm hone (List.length_pos_of_mem ho))
            have hmem := List.mem_of_getElem? hg
            rw [hx, List.mem_singleton] at ho hmem
            rw [ho, hmem]
          rw [hsame, decide_eq_true_eq]
          exact fun hid => hforeign hid.symm
      · cases hw
        exact ⟨(List.length_set ..).trans_le hone, hkept⟩
    · cases hw
  | ends i =>
    simp only [step] at hw
    split at hw
    · cases hw
      exact ⟨(List.length_eraseIdx_le ..).trans hone, hkept⟩
    · cases hw

theorem Inv.gathering_account (h : Inv fanout w) {g : Gathering} (hg : g ∈ w.gathering) :
    (asked fanout g.request).Perm
      (g.quotes ++ tagged g.id (w.unanswered fanout ++ w.responseQueue ++ w.stolen)) := by
  have hall := h.search_account (List.mem_append_left _ hg)
  have hgiven : tagged g.id (w.discarded.map Discard.quote) = tagged g.id w.stolen := by
    rw [tagged, tagged, State.stolen, List.filter_map, List.filter_map, List.filter_filter]
    congr 1
    refine List.filter_congr fun d hd => ?_
    cases hstolen : d.stolen with
    | true => exact (Bool.and_true _).symm
    | false =>
      -- the search of a quote that is not stolen has ended
      obtain ⟨o, ho, hid⟩ := h.given d hd hstolen
      have hnd := h.ids_nodup
      rw [State.all, List.map_append] at hnd
      have hne := (List.nodup_append.mp hnd).2.2 g.id (List.mem_map_of_mem hg) o.id
        (List.mem_map_of_mem ho)
      rw [Bool.and_false]
      exact decide_eq_false fun heq => hne (heq.symm.trans hid.symm)
  rw [State.astray, tagged_append, hgiven, ← tagged_append] at hall
  exact hall

theorem Inv.length_add (h : Inv fanout w) {g : Gathering} (hg : g ∈ w.all) :
    g.quotes.length + (tagged g.id (w.astray fanout)).length = fanout := by
  have hlen := (h.search_account hg).length_eq
  rw [asked, List.length_map, List.length_range, List.length_append] at hlen
  exact hlen.symm

theorem sum_add_sum {l : List Gathering} {f g : Gathering → ℕ} {k : ℕ} (h : ∀ a ∈ l, f a + g a = k) :
    (l.map f).sum + (l.map g).sum = l.length * k := by
  rw [← List.sum_map_add, List.map_congr_left h, List.map_const', List.sum_replicate, nsmul_eq_mul, Nat.cast_id]

end Steps

/-- Whatever the number of searches in flight, each quote of a search is with it, still to come, on the queue or
discarded, once; while it gathers, only others that gather have discarded it. The report over the
last `ops` searches falls short by the quotes that are astray, and counts the searches that miss one. -/
theorem searches_accounted (acts : List Action) (w : State)
    (hrun : run (step fanout concurrency) {} acts = some w) :
    (∀ g ∈ w.all, (asked fanout g.request).Nodup ∧
      (asked fanout g.request).Perm (g.quotes ++ tagged g.id (w.astray fanout))) ∧
    (∀ g ∈ w.gathering, (asked fanout g.request).Perm
      (g.quotes ++ tagged g.id (w.unanswered fanout ++ w.responseQueue ++ w.stolen))) ∧
    ∀ ops, 0 < ops → ops ≤ w.ended.length →
      let last := w.ended.drop (w.ended.length - ops)
      (extra fanout ops w.collected).expectedQuotes = (extra fanout ops w.collected).collectedQuotes +
        (last.map fun g => (tagged g.id (w.astray fanout)).length).sum ∧
      (extra fanout ops w.collected).partialGathers =
        last.countP fun g => tagged g.id (w.astray fanout) ≠ [] := by
  have h : Inv fanout w := run_invariant_of_step (fun _ _ _ hu hs => inv_step hu hs) inv_start hrun
  refine ⟨fun g hg => ⟨asked_nodup fanout g.request, h.search_account hg⟩,
    fun g hg => h.gathering_account hg, fun ops hpos hops => ?_⟩
  intro last
  have hmem : ∀ g ∈ last, g ∈ w.all := fun g hg => List.mem_append_right _ (List.mem_of_mem_drop hg)
  have hmeasured : measured ops w.collected = last.map fun g => g.quotes.length := by
    rw [measured, if_neg hpos.ne', State.collected, List.length_map, ← List.map_drop]
  have hlast : last.length = ops := by
    rw [List.length_drop]
    omega
  have hsum := sum_add_sum fun g hg => h.length_add (hmem g hg)
  rw [hlast] at hsum
  refine ⟨?_, ?_⟩
  · rw [extra, hmeasured]
    exact hsum.symm
  · rw [extra, hmeasured, List.countP_map]
    refine List.countP_congr fun g hg => ?_
    have hlen := h.length_add (hmem g hg)
    rw [Function.comp_apply, decide_eq_true_eq, decide_eq_true_eq, ← List.length_pos_iff]
    omega

/-- Two searches of one airline: the second takes the quote of the first off the queue. -/
def twoSearches : List Action :=
  [.oneSearch 0, .oneSearch 0, .answer 0, .take 1, .answer 0, .take 1, .ends 1, .ends 0]

theorem twoSearches_accounted : ∃ w, run (step 1 2) {} twoSearches = some w ∧ w.collected = [1, 0] ∧
    w.stolen = [lookup 0 (request 1 0)] ∧
    extra 1 2 w.collected = { expectedQuotes := 2, collectedQuotes := 1, partialGathers := 1 } ∧
    2 = 1 + ((w.ended.drop 0).map fun g => (tagged g.id (w.astray 1)).length).sum := by
  obtain ⟨w, hw, hcollected, hstolen, hended⟩ : ∃ w, run (step 1 2) {} twoSearches = some w ∧
      w.collected = [1, 0] ∧ w.stolen = [lookup 0 (request 1 0)] ∧ w.ended.length = 2 :=
    ⟨_, rfl, rfl, rfl, rfl⟩
  have hextra : extra 1 2 w.collected =
      { expectedQuotes := 2, collectedQuotes := 1, partialGathers := 1 } := by
    rw [hcollected]
    rfl
  obtain ⟨hreport, -⟩ := (searches_accounted 1 2 twoSearches w hw).2.2 2 (by decide) hended.ge
  rw [hextra, hended] at hreport
  exact ⟨w, hw, hcollected, hstolen, hextra, hreport⟩

/-- With one search at a time no quote is stolen: what a search misses has not been published or lies on the
queue. Every quote that another search discards is late, and so is every quote on the queue between two
searches; together with those still to come they are what the ended searches have missed. -/
theorem one_search_at_a_time (acts : List Action) (w : State) (hrun : run (step fanout 1) {} acts = some w) :
    (∀ g ∈ w.gathering, (asked fanout g.request).Perm
      (g.quotes ++ tagged g.id (w.unanswered fanout ++ w.responseQueue))) ∧
    (∀ d ∈ w.discarded, ∃ g ∈ w.ended, g.id = d.quote.correlationId ∧ g.quotes.length < fanout) ∧
    (w.gathering = [] →
      (∀ q ∈ w.responseQueue, ∃ g ∈ w.ended, g.id = q.correlationId ∧ g.quotes.length < fanout) ∧
      (w.unanswered fanout).length + w.responseQueue.length + w.discarded.length =
        (w.ended.map fun g => fanout - g.quotes.length).sum) := by
  have h : Inv fanout w := run_invariant_of_step (fun _ _ _ hu hs => inv_step hu hs) inv_start hrun
  have hlone : Lone w := run_invariant_of_step (fun _ _ _ hu hs => lone_step hu hs) lone_start hrun
  have hpartial {g : Gathering} {q : FlightQuote} (hg : g ∈ w.all) (hid : g.id = q.correlationId)
      (hq : q ∈ w.astray fanout) : g.quotes.length < fanout := by
    have hlen := h.length_add hg
    have hpos : 0 < (tagged g.id (w.astray fanout)).length :=
      List.length_pos_of_mem (List.mem_filter.mpr ⟨hq, decide_eq_true hid.symm⟩)
    omega
  refine ⟨fun g hg => ?_, fun d hd => ?_, fun hnone => ⟨fun q hq => ?_, ?_⟩⟩
  · have hstolen : w.stolen = [] := by
      rw [State.stolen, List.filter_eq_nil_iff.mpr fun d hd => by simp [hlone.2 d hd]]
      rfl
    have haccount := h.gathering_account hg
    rwa [hstolen, List.append_nil] at haccount
  · obtain ⟨g, hg, hid⟩ := h.given d hd (hlone.2 d hd)
    exact ⟨g, hg, hid, hpartial (List.mem_append_right _ hg) hid
      (List.mem_append_right _ (List.mem_map_of_mem hd))⟩
  · have hastray : q ∈ w.astray fanout := List.mem_append_left _ (List.mem_append_right _ hq)
    obtain ⟨g, hg, hid⟩ := h.exists_search hastray
    have hended : g ∈ w.ended := by
      rw [State.all, hnone, List.nil_append] at hg
      exact hg
    exact ⟨g, hended, hid, hpartial hg hid hastray⟩
  · have hall : w.all = w.ended := by rw [State.all, hnone, List.nil_append]
    have hlen := h.account.length_eq
    have hasked : (w.ended.flatMap fun g => asked fanout g.request).length = w.ended.length * fanout := by
      simp [List.length_flatMap, asked]
    have hmissed : (w.ended.map fun g => g.quotes.length).sum +
        (w.ended.map fun g => fanout - g.quotes.length).sum = w.ended.length * fanout :=
      sum_add_sum fun g hg => by
        have hle := h.length_add (hall ▸ hg : g ∈ w.all)
        omega
    rw [hall, hasked, List.length_append, List.length_flatMap, State.astray, List.length_append,
      List.length_append, List.length_map] at hlen
    omega

/-- The second airline is late for the first search; its quote meets the second one. -/
def lateAirline : List Action :=
  [.oneSearch 0, .answer 0, .take 0, .ends 0, .oneSearch 0, .answer 1, .take 0, .answer 0, .take 0, .ends 0]

theorem lateAirline_between : ∃ w, run (step 2 1) {} lateAirline = some w ∧ w.collected = [1, 1] ∧
    w.discarded.map Discard.quote = [lookup 1 (request 1 0)] ∧
    (w.unanswered 2).length + w.responseQueue.length + w.discarded.length =
      (w.ended.map fun g => 2 - g.quotes.length).sum := by
  obtain ⟨w, hw, hcollected, hdiscarded, hnone⟩ : ∃ w, run (step 2 1) {} lateAirline = some w ∧
      w.collected = [1, 1] ∧ w.discarded.map Discard.quote = [lookup 1 (request 1 0)] ∧
      w.gathering = [] := ⟨_, rfl, rfl, rfl, rfl⟩
  exact ⟨w, hw, hcollected, hdiscarded, ((one_search_at_a_time 2 lateAirline w hw).2.2 hnone).2⟩

end ScatterGather.Bench
