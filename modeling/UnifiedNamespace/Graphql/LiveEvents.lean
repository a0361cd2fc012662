/-
# `Graphql.LiveEvents` — live events fanned out to the clients

`event_stream.py`: a dispatcher offers each event to every registered client, and each
client reads from a queue of its own.  All of it runs on one event loop, so a step is
one `_fan_out`, one read of a queue, one registration or one removal, in any order.

A client counts what it was ever offered and never counts down, while its queue holds
what is unread, and `put_nowait` raises at a full queue.  `Client.Ready` says when these
agree: there is room in the queue, and a client that was offered too much has too much
unread.  In a run whose events all find their clients ready, each client gets the events
on its topics in order up to a resync, which is signalled for the backlog only, and no
client matters to another (`live_events_served`); an event that does not find them ready
is not served so.
-/
import UnifiedNamespace.Lib.Transition
import UnifiedNamespace.Python.Datetime

namespace Uns.Graphql

open Py Lib

/-! ## The clients -/

structure DispatchedEvent where
  topic : Str
  payloadJson : Bytes
  eventId : Str
  eventTime : Datetime

/-- `EventStreamConfig`. -/
structure EventStreamConfig where
  maxClients : Nat
  maxClientMessages : Nat
  maxClientBytes : Nat

structure ClientBudget where
  maxMessages : Nat
  maxBytes : Nat
  messageCount : Nat
  byteCount : Nat

/-- `admit`: the budget after the call, and its answer. -/
def ClientBudget.admits (b : ClientBudget) (payloadSize : Nat) : ClientBudget × Bool :=
  if b.maxMessages ≤ b.messageCount then (b, false)
  else if b.maxBytes < b.byteCount + payloadSize then (b, false)
  else ({ b with messageCount := b.messageCount + 1, byteCount := b.byteCount + payloadSize }, true)

/-- An event, or `RESYNC_SENTINEL`. -/
inductive Item where
  | event (e : DispatchedEvent)
  | resync

def Item.isEvent : Item → Bool
  | .event _ => true
  | .resync => false

/-- `asyncio.Queue`; a `maxsize` of 0 is no bound. -/
structure ClientQueue where
  items : List Item
  maxsize : Nat

def ClientQueue.full (q : ClientQueue) : Bool := decide (q.maxsize ≠ 0 ∧ q.maxsize ≤ q.items.length)

/-- `put_nowait`; `none` is `QueueFull`. -/
def ClientQueue.putNowait (q : ClientQueue) (item : Item) : Option ClientQueue :=
  if q.full then none else some { q with items := q.items ++ [item] }

structure LiveStreamRegistration where
  registrationId : Str
  topics : List Str
  queue : ClientQueue
  budget : ClientBudget

/-- A registration, with what its client has read, and what was fanned out on its topics while it
was registered. -/
structure Client extends LiveStreamRegistration where
  registered : Bool
  received : List Item
  due : List DispatchedEvent

/-- The clients in the order of `_clients`, and those that have left. -/
abbrev Clients := List Client

/-! ## Steps -/

/-- The loop of `_fan_out` at one registration, and whether it raised. -/
def Client.offer (event : DispatchedEvent) (c : Client) : Client × Bool :=
  if event.topic ∈ c.topics then
    let (budget, admitted) := c.budget.admits event.payloadJson.length
    match c.queue.putNowait (if admitted then .event event else .resync) with
    | none => ({ c with budget := budget }, true)
    | some queue => ({ c with budget := budget, queue := queue }, false)
  else (c, false)

/-- `_fan_out`, and whether it raised. -/
def fanOut (event : DispatchedEvent) : Clients → Clients × Bool
  | [] => ([], false)
  | c :: rest =>
      let offered := if c.registered then c.offer event else (c, false)
      if offered.2 then (offered.1 :: rest, true)
      else (offered.1 :: (fanOut event rest).1, (fanOut event rest).2)

/-- A read of the queue; after a resync the stream has ended. -/
def Client.read (c : Client) : Client :=
  if c.received.all Item.isEvent then
    { c with
      received := c.received ++ c.queue.items.take 1
      queue := { c.queue with items := c.queue.items.drop 1 } }
  else c

/-- An event on the topics of a registered client is due to it. -/
def Client.note (event : DispatchedEvent) (c : Client) : Client :=
  if c.registered = true ∧ event.topic ∈ c.topics then { c with due := c.due ++ [event] } else c

/-- The client that `_register` adds. -/
def EventStreamConfig.client (cfg : EventStreamConfig) (registrationId : Str) (topics : List Str) : Client where
  registrationId := registrationId
  topics := topics
  queue := ⟨[], cfg.maxClientMessages⟩
  budget := ⟨cfg.maxClientMessages, cfg.maxClientBytes, 0, 0⟩
  registered := true
  received := []
  due := []

inductive LiveInput where
  | fanOut (event : DispatchedEvent)
  | read (registrationId : Str)
  | register (registrationId : Str) (topics : List Str)
  | unregister (registrationId : Str)

/-- One step; a registration beyond the limit raises, and an id is used once. -/
def liveNext (cfg : EventStreamConfig) (clients : Clients) : LiveInput → Clients
  | .fanOut event => (fanOut event (clients.map (·.note event))).1
  | .read id => clients.map fun c => if c.registrationId = id then c.read else c
  | .register id topics =>
      if cfg.maxClients ≤ (clients.filter (·.registered)).length ∨ id ∈ clients.map (·.registrationId) then
        clients
      else clients ++ [cfg.client id topics]
  | .unregister id =>
      clients.map fun c => if c.registrationId = id then { c with registered := false } else c

/-- Any order of steps, from no client on. -/
def liveSystem (cfg : EventStreamConfig) : System Clients LiveInput where
  init clients := clients = []
  step clients input clients' := clients' = liveNext cfg clients input

/-! ## What a client is owed -/

/-- What the client was given, read or unread. -/
def Client.given (c : Client) : List Item := c.received ++ c.queue.items

/-- Up to the first resync the client is given what was due, in order and without a gap. -/
structure Client.InOrder (c : Client) : Prop where
  ordered : c.given.takeWhile Item.isEvent <+: c.due.map .event
  complete : c.given.all Item.isEvent = true → c.given = c.due.map .event

/-- The size of the payloads of the events. -/
def payloadBytes : List Item → Nat
  | [] => 0
  | .event e :: items => e.payloadJson.length + payloadBytes items
  | .resync :: items => payloadBytes items

/-- How many of the items are events. -/
def eventCount (items : List Item) : Nat := items.countP Item.isEvent

/-- The items and the event are more than a client may have. -/
def ClientBudget.Exceeded (b : ClientBudget) (items : List Item) (event : DispatchedEvent) : Prop :=
  b.maxMessages < eventCount items + 1 ∨ b.maxBytes < payloadBytes items + event.payloadJson.length

/-- The event puts a resync in the queue. -/
def Client.Signalled (event : DispatchedEvent) (c : Client) : Prop :=
  c.registered = true ∧ (c.offer event).1.queue.items = c.queue.items ++ [.resync]

/-- The event is offered to each client as if it were alone, and a resync is signalled for a backlog. -/
structure Served (clients : Clients) (event : DispatchedEvent) : Prop where
  completes : (fanOut event clients).2 = false
  alone : (fanOut event clients).1 =
    clients.map fun c => if c.registered then (c.offer event).1 else c
  backlog : ∀ c ∈ clients, c.Signalled event → c.budget.Exceeded c.queue.items event

/-- There is room in the queue, and a client that was given too much has too much unread. -/
def Client.Ready (event : DispatchedEvent) (c : Client) : Prop :=
  c.registered = true → event.topic ∈ c.topics → c.queue.full = false ∧
    (c.budget.Exceeded c.given event → c.budget.Exceeded c.queue.items event)

/-- The event finds its clients ready. -/
def LiveInput.Ready (clients : Clients) : LiveInput → Prop
  | .fanOut event => ∀ c ∈ clients, c.Ready event
  | _ => True

section Steps

variable {c : Client} {event : DispatchedEvent} {clients : Clients}

/-! ## One client -/

/-- The counters of a client are those of what it was given. -/
structure Client.Kept (c : Client) : Prop extends c.InOrder where
  messages : c.budget.messageCount = eventCount c.given
  bytes : c.budget.byteCount = payloadBytes c.given

theorem payloadBytes_append (items more : List Item) :
    payloadBytes (items ++ more) = payloadBytes items + payloadBytes more := by
  induction items with
  | nil => exact (Nat.zero_add _).symm
  | cons item items ih =>
      cases item with
      | event e =>
          rw [List.cons_append, payloadBytes, payloadBytes, ih, Nat.add_assoc]
      | resync => exact ih

/-- A client that was counted right is admitted when it was not given too much. -/
theorem Client.Kept.admits (h : c.Kept) :
    (c.budget.admits event.payloadJson.length).2 = true ↔ ¬ c.budget.Exceeded c.given event := by
  rw [ClientBudget.Exceeded, ← h.messages, ← h.bytes, not_or, not_lt, not_lt, ClientBudget.admits]
  split
  · rename_i hfull
    simp only [Bool.false_eq_true, false_iff]
    omega
  · split
    · rename_i hfull hbytes
      simp only [Bool.false_eq_true, false_iff]
      omega
    · rename_i hfull hbytes
      simp only [true_iff]
      omega

theorem offer_raised : (c.offer event).2 = true ↔ event.topic ∈ c.topics ∧ c.queue.full = true := by
  rw [Client.offer]
  split
  · rename_i htopic
    cases hfull : c.queue.full with
    | true => simp [ClientQueue.putNowait, hfull, htopic]
    | false => simp [ClientQueue.putNowait, hfull]
  · rename_i htopic
    simp [htopic]

/-- The item that an event puts in a queue. -/
def Client.item (event : DispatchedEvent) (c : Client) : Item :=
  if (c.budget.admits event.payloadJson.length).2 then .event event else .resync

/-- What the queue gets when there is room. -/
theorem offer_room (htopic : event.topic ∈ c.topics) (hroom : c.queue.full = false) :
    (c.offer event).1 =
      { c with
        budget := (c.budget.admits event.payloadJson.length).1
        queue := { c.queue with items := c.queue.items ++ [c.item event] } } := by
  simp [Client.offer, ClientQueue.putNowait, hroom, htopic, Client.item]

theorem given_offer (htopic : event.topic ∈ c.topics) (hroom : c.queue.full = false) :
    (c.offer event).1.given = c.given ++ [c.item event] := by
  rw [offer_room htopic hroom]
  exact (List.append_assoc _ _ _).symm

/-- The counters go up by what is admitted. -/
theorem admit_counts (b : ClientBudget) (event : DispatchedEvent) :
    (b.admits event.payloadJson.length).1.messageCount =
        b.messageCount + eventCount [if (b.admits event.payloadJson.length).2 then .event event else .resync] ∧
      (b.admits event.payloadJson.length).1.byteCount =
        b.byteCount + payloadBytes [if (b.admits event.payloadJson.length).2 then .event event else .resync] := by
  rw [ClientBudget.admits]
  split
  · exact ⟨rfl, rfl⟩
  · split
    · exact ⟨rfl, rfl⟩
    · exact ⟨rfl, rfl⟩

theorem offer_other (htopic : event.topic ∉ c.topics) : c.offer event = (c, false) := by
  rw [Client.offer, if_neg htopic]

/-- A resync is signalled to a client with room that is not admitted. -/
theorem signalled_iff : c.Signalled event ↔ c.registered = true ∧ event.topic ∈ c.topics ∧
    c.queue.full = false ∧ (c.budget.admits event.payloadJson.length).2 = false := by
  rw [Client.Signalled]
  refine and_congr_right fun _ => ?_
  by_cases htopic : event.topic ∈ c.topics
  · cases hfull : c.queue.full with
    | true => simp [Client.offer, htopic, ClientQueue.putNowait, hfull]
    | false =>
        rw [offer_room htopic hfull, Client.item]
        cases (c.budget.admits event.payloadJson.length).2 with
        | true => simp [htopic]
        | false => simp [htopic]
  · simp [offer_other htopic, htopic]

/-- What is given next goes to the end, and is due when it is an event. -/
theorem Client.InOrder.give {c d : Client} (h : c.InOrder) {item : Item}
    (hgiven : d.given = c.given ++ [item]) (hdue : d.due = c.due ++ [event])
    (hitem : item = .event event ∨ item = .resync) : d.InOrder := by
  have hprefix : c.due.map Item.event <+: d.due.map Item.event := by
    rw [hdue, List.map_append]
    exact List.prefix_append _ _
  rcases hall : c.given.all Item.isEvent with _ | _
  · -- a resync was given before, and nothing after it counts
    have hsome : ¬ ∀ x ∈ c.given, x.isEvent = true := by
      rw [← List.all_eq_true, hall]
      exact Bool.false_ne_true
    refine ⟨?_, ?_⟩
    · rw [hgiven, List.takeWhile_append, if_neg]
      · exact h.ordered.trans hprefix
      · intro hlength
        have heq := (List.takeWhile_prefix (p := Item.isEvent) (l := c.given)).eq_of_length hlength
        exact hsome (List.takeWhile_eq_self_iff.mp heq)
    · rw [hgiven, List.all_append, hall]
      intro hfalse
      cases hfalse
  · have hsame := h.complete hall
    rcases hitem with rfl | rfl
    · have heq : d.given = d.due.map .event := by
        rw [hgiven, hdue, List.map_append, hsame]
        rfl
      refine ⟨?_, fun _ => heq⟩
      rw [heq]
      exact List.takeWhile_prefix _
    · refine ⟨?_, ?_⟩
      · rw [hgiven, List.takeWhile_append_of_pos (List.all_eq_true.mp hall)]
        rw [List.takeWhile_cons_of_neg Bool.false_ne_true, List.append_nil, hsame]
        exact hprefix
      · rw [hgiven, List.all_append]
        intro hfalse
        simp [Item.isEvent] at hfalse

theorem kept_client (cfg : EventStreamConfig) (id : Str) (topics : List Str) : (cfg.client id topics).Kept :=
  ⟨⟨List.nil_prefix, fun _ => rfl⟩, rfl, rfl⟩

/-- A read gives nothing new. -/
theorem given_read : c.read.given = c.given := by
  rw [Client.read]
  split
  · show (c.received ++ c.queue.items.take 1) ++ c.queue.items.drop 1 = c.given
    rw [List.append_assoc, List.take_append_drop]
    rfl
  · rfl

theorem Client.Kept.read (h : c.Kept) : c.read.Kept := by
  have hfields : c.read.due = c.due ∧ c.read.budget = c.budget := by
    rw [Client.read]
    split <;> exact ⟨rfl, rfl⟩
  refine ⟨⟨?_, ?_⟩, ?_, ?_⟩
  · rw [given_read, hfields.1]
    exact h.ordered
  · rw [given_read, hfields.1]
    exact h.complete
  · rw [given_read, hfields.2]
    exact h.messages
  · rw [given_read, hfields.2]
    exact h.bytes

/-- A client with room is given the event or a resync, and is counted right. -/
theorem Client.Kept.offered (h : c.Kept) (hroom : c.registered = true → event.topic ∈ c.topics →
    c.queue.full = false) :
    (if (c.note event).registered then ((c.note event).offer event).1 else c.note event).Kept := by
  by_cases hdue : c.registered = true ∧ event.topic ∈ c.topics
  · obtain ⟨hregistered, htopic⟩ := hdue
    have hnote : c.note event = { c with due := c.due ++ [event] } := if_pos ⟨hregistered, htopic⟩
    generalize hd : c.note event = d at hnote ⊢
    have hdtopic : event.topic ∈ d.topics := by
      rw [hnote]
      exact htopic
    have hdroom : d.queue.full = false := by
      rw [hnote]
      exact hroom hregistered htopic
    have hgiven : (d.offer event).1.given = c.given ++ [d.item event] := by
      rw [given_offer hdtopic hdroom, hnote]
      rfl
    have hbudget : (d.offer event).1.budget = (c.budget.admits event.payloadJson.length).1 := by
      rw [offer_room hdtopic hdroom, hnote]
    have hdue : (d.offer event).1.due = c.due ++ [event] := by
      rw [offer_room hdtopic hdroom, hnote]
    have hitem : d.item event =
        if (c.budget.admits event.payloadJson.length).2 then .event event else .resync := by
      rw [hnote]
      rfl
    obtain ⟨hmessages, hbytes⟩ := admit_counts c.budget event
    rw [if_pos (by rw [hnote]; exact hregistered)]
    refine ⟨h.toInOrder.give hgiven hdue ?_, ?_, ?_⟩
    · rw [hitem]
      split
      · exact .inl rfl
      · exact .inr rfl
    · rw [hbudget, hgiven, hitem, hmessages, h.messages]
      exact (List.countP_append).symm
    · rw [hbudget, hgiven, hitem, hbytes, h.bytes]
      exact (payloadBytes_append _ _).symm
  · rw [Client.note, if_neg hdue]
    split
    · rename_i hregistered
      rw [offer_other fun htopic => hdue ⟨hregistered, htopic⟩]
      exact h
    · exact h

/-! ## All clients -/

/-- The loop ends when no registered client raises, and then each client was offered the event. -/
theorem fanOut_completes : (fanOut event clients).2 = false ↔
    ∀ c ∈ clients, c.registered = true → (c.offer event).2 = false := by
  induction clients with
  | nil => simp [fanOut]
  | cons c clients ih =>
      rw [fanOut, List.forall_mem_cons, ← ih]
      cases hregistered : c.registered with
      | false => simp
      | true =>
          cases hraised : (c.offer event).2 with
          | false => simp [hraised]
          | true => simp [hraised]

theorem fanOut_alone (h : ∀ c ∈ clients, c.registered = true → (c.offer event).2 = false) :
    (fanOut event clients).1 = clients.map fun c => if c.registered then (c.offer event).1 else c := by
  induction clients with
  | nil => rfl
  | cons c clients ih =>
      obtain ⟨hc, hrest⟩ := List.forall_mem_cons.mp h
      rw [fanOut, List.map_cons, ← ih hrest]
      cases hregistered : c.registered with
      | false => simp
      | true => simp [hc hregistered]

/-- A client that raises keeps the event from those behind it. -/
theorem fanOut_stops {front behind : Clients} (hc : c.registered = true) (hraised : (c.offer event).2 = true) :
    ∃ front', (fanOut event (front ++ c :: behind)).1 = front' ++ behind := by
  induction front with
  | nil =>
      refine ⟨[(c.offer event).1], ?_⟩
      rw [List.nil_append, fanOut]
      simp [hc, hraised]
  | cons d front ih =>
      obtain ⟨front', hfront⟩ := ih
      rw [List.cons_append, fanOut]
      generalize (if d.registered = true then d.offer event else (d, false)) = offered
      cases hout : offered.2 with
      | true => exact ⟨offered.1 :: front ++ [c], by simp⟩
      | false => exact ⟨offered.1 :: front', by simp [hfront]⟩

/-- Whether a client raises is decided by its topics and its queue. -/
theorem offer_note_raised : ((c.note event).offer event).2 = (c.offer event).2 := by
  rw [Bool.eq_iff_iff, offer_raised, offer_raised, Client.note]
  split <;> rfl

theorem registered_note : (c.note event).registered = c.registered := by
  rw [Client.note]
  split <;> rfl

theorem Client.Ready.room (h : c.Ready event) (hregistered : c.registered = true) :
    (c.offer event).2 = false := by
  rw [Bool.eq_false_iff]
  intro hraised
  obtain ⟨htopic, hfull⟩ := offer_raised.mp hraised
  rw [(h hregistered htopic).1] at hfull
  cases hfull

/-- An event is served exactly when it finds its clients ready. -/
theorem served_iff (h : ∀ c ∈ clients, c.Kept) :
    Served clients event ↔ ∀ c ∈ clients, c.Ready event := by
  constructor
  · intro hserved c hc hregistered htopic
    have hroom : c.queue.full = false := by
      rw [Bool.eq_false_iff]
      intro hfull
      have hdone := fanOut_completes.mp hserved.completes c hc hregistered
      rw [offer_raised.mpr ⟨htopic, hfull⟩] at hdone
      cases hdone
    refine ⟨hroom, ?_⟩
    intro hexceeded
    refine hserved.backlog c hc (signalled_iff.mpr ⟨hregistered, htopic, hroom, ?_⟩)
    rw [Bool.eq_false_iff, Ne, (h c hc).admits, not_not]
    exact hexceeded
  · intro hready
    have hdone : ∀ c ∈ clients, c.registered = true → (c.offer event).2 = false :=
      fun c hc => (hready c hc).room
    refine ⟨fanOut_completes.mpr hdone, fanOut_alone hdone, ?_⟩
    intro c hc hsignalled
    obtain ⟨hregistered, htopic, -, hrefused⟩ := signalled_iff.mp hsignalled
    refine (hready c hc hregistered htopic).2 ?_
    by_contra hfits
    rw [(h c hc).admits.mpr hfits] at hrefused
    cases hrefused

theorem kept_next {cfg : EventStreamConfig} (h : ∀ c ∈ clients, c.Kept) {input : LiveInput}
    (hready : input.Ready clients) : ∀ c ∈ liveNext cfg clients input, c.Kept := by
  cases input with
  | fanOut event =>
      have hdone : ∀ c ∈ clients.map (·.note event), c.registered = true → (c.offer event).2 = false := by
        intro c hc hregistered
        obtain ⟨d, hd, rfl⟩ := List.mem_map.mp hc
        rw [offer_note_raised]
        rw [registered_note] at hregistered
        exact (hready d hd).room hregistered
      rw [liveNext, fanOut_alone hdone, List.map_map]
      intro c hc
      obtain ⟨d, hd, rfl⟩ := List.mem_map.mp hc
      exact (h d hd).offered fun hregistered htopic => (hready d hd hregistered htopic).1
  | read id =>
      intro c hc
      obtain ⟨d, hd, rfl⟩ := List.mem_map.mp hc
      split
      · exact (h d hd).read
      · exact h d hd
  | register id topics =>
      rw [liveNext]
      split
      · exact h
      · intro c hc
        rcases List.mem_append.mp hc with hc | hc
        · exact h c hc
        · obtain rfl := List.mem_singleton.mp hc
          exact kept_client cfg id topics
  | unregister id =>
      intro c hc
      obtain ⟨d, hd, rfl⟩ := List.mem_map.mp hc
      have hkept := h d hd
      split
      · exact ⟨⟨hkept.ordered, hkept.complete⟩, hkept.messages, hkept.bytes⟩
      · exact hkept

end Steps

/-! ## Runs -/

/-- While every event finds its clients ready, each client is given what is due up to a resync; and
the next event is served exactly when it finds them ready too. -/
theorem live_events_served (cfg : EventStreamConfig) (clients : Clients)
    (h : ((liveSystem cfg).restrict fun clients input => input.Ready clients).Reachable clients) :
    (∀ c ∈ clients, c.InOrder) ∧
      ∀ event, Served clients event ↔ ∀ c ∈ clients, c.Ready event := by
  have hkept : ∀ c ∈ clients, c.Kept := by
    refine System.invariant (I := fun clients : Clients => ∀ c ∈ clients, c.Kept) ?_ ?_ h
    · rintro clients rfl
      exact fun _ hc => nomatch hc
    · rintro clients input clients' - hkept ⟨hready, rfl⟩
      exact kept_next hkept hready
  exact ⟨fun c hc => (hkept c hc).toInOrder, fun event => served_iff hkept⟩

/-- Some steps. -/
def liveRun (cfg : EventStreamConfig) (clients : Clients) (inputs : List LiveInput) : Clients :=
  inputs.foldl (liveNext cfg) clients

theorem reachable_liveRun {cfg : EventStreamConfig} {clients : Clients} (h : (liveSystem cfg).Reachable clients)
    (inputs : List LiveInput) : (liveSystem cfg).Reachable (liveRun cfg clients inputs) := by
  induction inputs generalizing clients with
  | nil => exact h
  | cons input inputs ih => exact ih (.step h rfl)

def sampleTopic : Str := lit "Enterprise/Site/Pump"

def sampleDispatched : DispatchedEvent :=
  ⟨sampleTopic, [123, 125], lit "ingress:1", Date.midnight ⟨2026, 1, 1, validDate_newYear2026⟩⟩

/-- A client that has one event to read. -/
def oneUnread : Clients :=
  liveRun ⟨1, 2, 100⟩ [] [.register (lit "a") [sampleTopic], .fanOut sampleDispatched]

/-- The next event is served. -/
theorem live_events_served_second : (∀ c ∈ oneUnread, c.InOrder) ∧ Served oneUnread sampleDispatched := by
  have hreach : ((liveSystem ⟨1, 2, 100⟩).restrict fun clients input => input.Ready clients).Reachable
      oneUnread := by
    refine .step (i := .fanOut sampleDispatched) (.step (i := .register (lit "a") [sampleTopic]) (.init rfl)
      ⟨trivial, rfl⟩) ⟨?_, rfl⟩
    intro c hc
    obtain rfl := List.mem_singleton.mp hc
    exact fun _ _ => ⟨rfl, fun hexceeded => hexceeded⟩
  obtain ⟨hordered, hserved⟩ := live_events_served ⟨1, 2, 100⟩ oneUnread hreach
  refine ⟨hordered, (hserved sampleDispatched).mpr ?_⟩
  intro c hc
  obtain rfl := List.mem_singleton.mp hc
  exact fun _ _ => ⟨rfl, fun hexceeded => hexceeded⟩

/-- A client that has read all it was given. -/
def allRead : Clients :=
  liveRun ⟨1, 1, 100⟩ [] [.register (lit "a") [sampleTopic], .fanOut sampleDispatched, .read (lit "a")]

/-- It has nothing unread, and the next event puts a resync in its queue. -/
theorem resync_without_backlog : ¬ ∀ cfg clients, (liveSystem cfg).Reachable clients →
    (∀ c ∈ clients, c.InOrder) ∧ ∀ event, Served clients event := by
  intro h
  obtain ⟨-, hserved⟩ := h ⟨1, 1, 100⟩ allRead (reachable_liveRun (.init rfl) _)
  have hbacklog := (hserved sampleDispatched).backlog _ List.mem_cons_self ⟨rfl, rfl⟩
  exact absurd hbacklog (by rintro (h | h) <;> exact absurd h (by decide))

end Uns.Graphql
