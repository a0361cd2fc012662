/-
# `Edge.PendingFlag` — whether HiveMQ Edge has the catalog

A write marks its server `pending` with `EDGE_APPLY_ERROR`, a live apply that the broker accepts
clears the marks.  A connection test writes the same two columns, and only one test operation
looks at them first: it keeps the error of a server that is still `pending`, but records it as
`connected`.  So the next test of the server clears the error, and a test by endpoint, or one that
fails, replaces it at once (`truthful_perform_iff`).
-/
import UnifiedNamespace.Edge.Sync
import UnifiedNamespace.Lib.Transition

namespace Uns.Edge

open Py Lib

/-! ## The catalog -/

/-- `last_status`. -/
inductive Status where
  | untested
  | pending
  | connected
  | failed
  deriving DecidableEq

structure Flag where
  lastStatus : Status
  lastError : Str
  deriving DecidableEq

def edgeApplyError : Str := lit "Waiting for HiveMQ Edge to apply"

def pendingFlag : Flag := ⟨.pending, edgeApplyError⟩

def connectivityProtocols : List Str := [lit "opc_ua", lit "s7", lit "ethernet_ip"]

/-- The rows of one server, its own and those of its tags. -/
def serverRows (rows : Rows) (id : Str) : Option EdgeServer × (Str → Option EdgeTag) :=
  (rows.servers.get? id, fun nodeId => rows.tags.get? (id, nodeId))

structure Catalog where
  rows : Rows
  /-- `last_status` and `last_error` of the servers. -/
  flags : Str → Flag
  /-- The servers whose rows changed after the last live apply that was accepted. -/
  unapplied : Set Str

/-! ## The writes -/

inductive CatalogWrite where
  | saveServer (id : Str) (server : EdgeServer)
  | deleteServer (id : Str)
  | saveTag (serverId nodeId : Str) (tag : EdgeTag)
  | updateTag (serverId nodeId : Str) (patch : EdgeTag → EdgeTag)
  | unsubscribeTag (serverId nodeId : Str)
  | replaceSubscribedTags (serverId : Str) (discovered : List (Str × EdgeTag))

def CatalogWrite.server : CatalogWrite → Str
  | .saveServer id _ => id
  | .deleteServer id => id
  | .saveTag serverId _ _ => serverId
  | .updateTag serverId _ _ => serverId
  | .unsubscribeTag serverId _ => serverId
  | .replaceSubscribedTags serverId _ => serverId

/-- `merge_discovered`, as the specs of the nodes: a node that is there keeps its topic. -/
def mergeDiscovered (existing : Dict Str EdgeTag) (discovered : List (Str × EdgeTag)) : Dict Str EdgeTag :=
  discovered.foldl
    (fun specs tag =>
      let topic := ((specs.get? tag.1).getD tag.2).mqttTopic
      specs.update tag.1 tag.2 fun _ => ⟨tag.2.displayName, topic, none, true⟩)
    existing

/-- `list_subscribed_tags`, by node. -/
def subscribedTags (rows : Rows) (serverId : Str) : List (Str × EdgeTag) :=
  (rows.tags.entries.filter fun e => decide (e.1.1 = serverId) && e.2.subscribed).map fun e => (e.1.2, e.2)

/-- The specs of a discovery by their nodes. -/
def byNode (pairs : List (Str × EdgeTag)) : Dict Str EdgeTag :=
  pairs.foldl (fun d pair => d.update pair.1 pair.2 fun _ => pair.2) .empty

def CatalogWrite.apply (rows : Rows) : CatalogWrite → Rows
  | .saveServer id server => (Write.saveServer id server).apply rows
  | .deleteServer id => (Write.deleteServer id).apply rows
  | .saveTag serverId nodeId tag => (Write.saveTag serverId nodeId tag).apply rows
  | .updateTag serverId nodeId patch => (Write.updateTag serverId nodeId patch).apply rows
  | .unsubscribeTag serverId nodeId =>
      (Write.updateTag serverId nodeId fun tag => { tag with subscribed := false }).apply rows
  | .replaceSubscribedTags serverId discovered =>
      { rows with
        tags := (mergeDiscovered (byNode (subscribedTags rows serverId)) discovered).entries.foldl
          (fun tags tag => tags.update (serverId, tag.1) tag.2 fun old => { old with subscribed := tag.2.subscribed })
          rows.tags }

/-- What the write needs: the vocabulary of `protocol`, the foreign key of a new tag, the row of an
update.  A write without raises, or returns `None` before it marks. -/
def CatalogWrite.accepted (rows : Rows) : CatalogWrite → Bool
  | .saveServer _ server => decide (server.protocol ∈ connectivityProtocols)
  | .deleteServer _ => true
  | .saveTag serverId _ _ => (rows.servers.get? serverId).isSome
  | .updateTag serverId nodeId _ => (rows.tags.get? (serverId, nodeId)).isSome
  | .unsubscribeTag _ _ => true
  | .replaceSubscribedTags serverId _ => (rows.servers.get? serverId).isSome

/-- `_mark_pending_if_edge`; a saved server is marked with its row. -/
def markPendingIfEdge (rows : Rows) (flags : Str → Flag) (id : Str) : Str → Flag :=
  if (rows.servers.get? id).any (fun server => decide (server.protocol ∈ edgeProtocols)) = true then
    Function.update flags id pendingFlag
  else flags

/-- The servers whose rows a write changed join those that wait. -/
def Catalog.write (c : Catalog) (w : CatalogWrite) : Catalog :=
  if w.accepted c.rows = true then
    { rows := w.apply c.rows
      flags := markPendingIfEdge (w.apply c.rows) c.flags w.server
      unapplied := c.unapplied ∪ {id | serverRows (w.apply c.rows) id ≠ serverRows c.rows id} }
  else c

/-! ## Live applies and tests -/

/-- What comes of `apply_catalog_adapters_live`: it returns, raises `EdgeApplyError`, or something else. -/
inductive Applied where
  | returned
  | edgeApplyError
  | raised

/-- The result of a probe. -/
inductive Outcome where
  | ok
  | error (message : Str)
  deriving DecidableEq

def setFlags (flags : Str → Flag) (ids : List Str) (flag : Flag) : Str → Flag :=
  fun id => if id ∈ ids then flag else flags id

/-- `record_live_apply`. -/
def recordLiveApply (flags : Str → Flag) (ids : List Str) (ok : Bool) : Str → Flag :=
  setFlags flags ids (if ok = true then ⟨.untested, []⟩ else pendingFlag)

/-- `_finish_live_apply`. -/
def Catalog.finishLiveApply (c : Catalog) (mutatedIds : List Str) (applied : Applied) : Catalog :=
  match edgeAdaptersFromRows c.rows.servers.entries c.rows.tags with
  | none => c
  | some adapters =>
      match applied with
      | .raised => c
      | .edgeApplyError => { c with flags := recordLiveApply c.flags mutatedIds false }
      | .returned =>
          let edgeIds := if adapters = [] then mutatedIds else adapters.map (·.serverId)
          { c with flags := recordLiveApply c.flags edgeIds true, unapplied := ∅ }

/-- `record_test`. -/
def recordTest (flags : Str → Flag) (id : Str) (ok : Bool) (error : Str) : Str → Flag :=
  setFlags flags [id] ⟨if ok = true then .connected else .failed, error⟩

def Outcome.isOk : Outcome → Bool
  | .ok => true
  | .error _ => false

/-- `error or ""`. -/
def Outcome.message : Outcome → Str
  | .ok => []
  | .error message => message

/-- `test_connectivity_server`; it raises for a server that is not there or has no address. -/
def Catalog.testConnectivityServer (c : Catalog) (id : Str) (outcome : Outcome) : Catalog :=
  match c.rows.servers.get? id with
  | none => c
  | some server =>
      if server.protocol ≠ lit "opc_ua" ∧ parseHostPort server.endpoint = none then c
      else
        let error := if outcome = .ok ∧ (c.flags id).lastStatus = .pending then edgeApplyError else outcome.message
        { c with flags := recordTest c.flags id outcome.isOk error }

/-- The first server with the endpoint. -/
def serverAt (rows : Rows) (endpoint : Str) : Option Str :=
  (rows.servers.entries.find? fun e => decide (e.2.endpoint = endpoint)).map Prod.fst

/-- `test_opc_ua_connection`. -/
def Catalog.testOpcUaConnection (c : Catalog) (endpoint : Str) (outcome : Outcome) : Catalog :=
  match serverAt c.rows endpoint with
  | none => c
  | some id => { c with flags := recordTest c.flags id outcome.isOk outcome.message }

inductive Operation where
  | write (w : CatalogWrite)
  | liveApply (mutatedIds : List Str) (applied : Applied)
  | testConnectivityServer (id : Str) (outcome : Outcome)
  | testOpcUaConnection (endpoint : Str) (outcome : Outcome)

def Catalog.perform (c : Catalog) : Operation → Catalog
  | .write w => c.write w
  | .liveApply mutatedIds applied => c.finishLiveApply mutatedIds applied
  | .testConnectivityServer id outcome => c.testConnectivityServer id outcome
  | .testOpcUaConnection endpoint outcome => c.testOpcUaConnection endpoint outcome

/-! ## What a write changes -/

/-- Every server is of the vocabulary. -/
def Vocabulary (rows : Rows) : Prop :=
  ∀ id server, rows.servers.get? id = some server → server.protocol ∈ connectivityProtocols

theorem mem_edgeProtocols {protocol : Str} (h : protocol ∈ connectivityProtocols) : protocol ∈ edgeProtocols := by
  revert protocol
  decide

theorem serverRows_saveTags {rows : Rows} {serverId id : Str} (hne : id ≠ serverId) (f : Str × EdgeTag → EdgeTag → EdgeTag)
    (specs : List (Str × EdgeTag)) :
    serverRows { rows with
      tags := specs.foldl (fun tags tag => tags.update (serverId, tag.1) tag.2 (f tag)) rows.tags } id =
    serverRows rows id := by
  refine congrArg (Prod.mk _) (funext fun nodeId => ?_)
  change (specs.foldl (fun tags tag => tags.update (serverId, tag.1) tag.2 (f tag)) rows.tags).get? (id, nodeId) = _
  generalize rows.tags = tags
  induction specs generalizing tags with
  | nil => rfl
  | cons spec specs ih =>
      rw [List.foldl_cons, ih]
      exact Dict.get?_update_ne _ _ _ fun heq => hne (congrArg Prod.fst heq)

theorem serverRows_updateTag {rows : Rows} {serverId nodeId id : Str} (hne : id ≠ serverId) (patch : EdgeTag → EdgeTag) :
    serverRows ((Write.updateTag serverId nodeId patch).apply rows) id = serverRows rows id := by
  refine congrArg (Prod.mk _) (funext fun node => ?_)
  refine (Dict.get?_mapValues _ _ _).trans ?_
  have hkey : ∀ tag, (if (id, node) = (serverId, nodeId) then patch tag else tag) = tag := fun tag =>
    if_neg fun heq => hne (congrArg Prod.fst heq)
  simp only [hkey, Option.map_id']

/-- A write is about one server. -/
theorem serverRows_apply {rows : Rows} {w : CatalogWrite} {id : Str} (hne : id ≠ w.server) :
    serverRows (w.apply rows) id = serverRows rows id := by
  cases w with
  | saveServer saved server => exact congrArg (fun s => (s, _)) (Dict.get?_update_ne _ _ _ hne)
  | deleteServer gone =>
      refine Prod.ext (Dict.get?_erase_ne _ hne) (funext fun nodeId => ?_)
      refine (Dict.get?_filter _ _ _).trans ?_
      have hkept : (fun _ : EdgeTag => decide ((id, nodeId).1 ≠ gone)) = fun _ => true :=
        funext fun _ => decide_eq_true hne
      rw [hkept]
      change _ = rows.tags.get? (id, nodeId)
      cases rows.tags.get? (id, nodeId) <;> rfl
  | saveTag serverId nodeId tag => exact serverRows_saveTags hne (fun _ _ => tag) [(nodeId, tag)]
  | updateTag serverId nodeId patch => exact serverRows_updateTag hne patch
  | unsubscribeTag serverId nodeId => exact serverRows_updateTag hne _
  | replaceSubscribedTags serverId discovered => exact serverRows_saveTags hne _ _

theorem servers_apply {rows : Rows} {w : CatalogWrite} (hw : w.accepted rows = true) (h : Vocabulary rows) :
    Vocabulary (w.apply rows) := by
  intro id server hserver
  cases w with
  | saveServer saved row =>
      by_cases hid : id = saved
      · subst hid
        have hsaved := (Dict.get?_update_self rows.servers id row fun _ => row).symm.trans hserver
        rw [← Option.some.inj hsaved]
        exact of_decide_eq_true hw
      · exact h id server ((Dict.get?_update_ne _ _ _ hid).symm.trans hserver)
  | deleteServer gone =>
      by_cases hid : id = gone
      · subst hid
        have hgone := (Dict.get?_erase_self rows.servers id).symm.trans hserver
        cases hgone
      · exact h id server ((Dict.get?_erase_ne _ hid).symm.trans hserver)
  | saveTag _ _ _ => exact h id server hserver
  | updateTag _ _ _ => exact h id server hserver
  | unsubscribeTag _ _ => exact h id server hserver
  | replaceSubscribedTags _ _ => exact h id server hserver

theorem markPendingIfEdge_self {rows : Rows} (h : Vocabulary rows) {id : Str} (hid : (rows.servers.get? id).isSome = true)
    (flags : Str → Flag) : markPendingIfEdge rows flags id id = pendingFlag := by
  obtain ⟨server, hserver⟩ := Option.isSome_iff_exists.mp hid
  have hedge : (rows.servers.get? id).any (fun server => decide (server.protocol ∈ edgeProtocols)) = true := by
    rw [hserver]
    exact decide_eq_true (mem_edgeProtocols (h id server hserver))
  rw [markPendingIfEdge, if_pos hedge, Function.update_self]

theorem markPendingIfEdge_ne {rows : Rows} {id other : Str} (h : other ≠ id) (flags : Str → Flag) :
    markPendingIfEdge rows flags id other = flags other := by
  rw [markPendingIfEdge]
  split
  · exact Function.update_of_ne h _ _
  · rfl

/-! ## The flag -/

/-- Every server that waits says so. -/
def Truthful (c : Catalog) : Prop :=
  ∀ id ∈ c.unapplied, (c.rows.servers.get? id).isSome = true → (c.flags id).lastError = edgeApplyError

/-- `test_connectivity_server` gets as far as `record_test`. -/
def Recorded (rows : Rows) (id : Str) : Prop :=
  ∃ server, rows.servers.get? id = some server ∧
    ¬ (server.protocol ≠ lit "opc_ua" ∧ parseHostPort server.endpoint = none)

/-- A test of a server that waits finds it `pending` and succeeds, or its error is the text of the flag. -/
def Harmless (c : Catalog) : Operation → Prop
  | .testConnectivityServer id outcome => Recorded c.rows id → id ∈ c.unapplied →
      outcome = .ok ∧ (c.flags id).lastStatus = .pending ∨ outcome = .error edgeApplyError
  | .testOpcUaConnection endpoint outcome => ∀ id, serverAt c.rows endpoint = some id → id ∈ c.unapplied →
      outcome = .error edgeApplyError
  | _ => True

variable {c : Catalog}

theorem truthful_write (h : Truthful c) (hv : Vocabulary c.rows) (w : CatalogWrite) : Truthful (c.write w) := by
  rw [Catalog.write]
  split
  · rename_i haccepted
    intro id hid hserver
    by_cases heq : id = w.server
    · subst heq
      exact congrArg Flag.lastError (markPendingIfEdge_self (servers_apply haccepted hv) hserver c.flags)
    · have hrows : serverRows (w.apply c.rows) id = serverRows c.rows id := serverRows_apply heq
      have hbefore : id ∈ c.unapplied := hid.resolve_right fun hchanged => hchanged hrows
      have hold : (c.rows.servers.get? id).isSome = true :=
        (congrArg (fun rows => rows.1.isSome) hrows).symm.trans hserver
      exact (congrArg Flag.lastError (markPendingIfEdge_ne heq c.flags)).trans (h id hbefore hold)
  · exact h

theorem truthful_liveApply (h : Truthful c) (mutatedIds : List Str) (applied : Applied) :
    Truthful (c.finishLiveApply mutatedIds applied) := by
  rw [Catalog.finishLiveApply]
  split
  · exact h
  · split
    · exact h
    · intro id hid hserver
      change (if id ∈ mutatedIds then pendingFlag else c.flags id).lastError = edgeApplyError
      split
      · rfl
      · exact h id hid hserver
    · exact fun id hid => absurd hid (Set.notMem_empty id)

/-- A test overwrites the error of its server only. -/
theorem truthful_recordTest (h : Truthful c) {id : Str} (hid : (c.rows.servers.get? id).isSome = true) (ok : Bool)
    (error : Str) : Truthful { c with flags := recordTest c.flags id ok error } ↔
      (id ∈ c.unapplied → error = edgeApplyError) := by
  constructor
  · intro hafter hunapplied
    have hflag := hafter id hunapplied hid
    change (if id ∈ [id] then Flag.mk (if ok = true then .connected else .failed) error else
      c.flags id).lastError = edgeApplyError at hflag
    rwa [if_pos List.mem_cons_self] at hflag
  · intro herror other hother hserver
    change (if other ∈ [id] then Flag.mk (if ok = true then .connected else .failed) error else
      c.flags other).lastError = edgeApplyError
    split
    · rename_i hsame
      rw [List.mem_singleton.mp hsame] at hother
      exact herror hother
    · exact h other hother hserver

theorem edgeApplyError_ne_nil : edgeApplyError ≠ [] := by decide

theorem message_eq_iff {outcome : Outcome} : outcome.message = edgeApplyError ↔ outcome = .error edgeApplyError := by
  cases outcome with
  | ok => exact ⟨fun h => absurd h.symm edgeApplyError_ne_nil, fun h => by cases h⟩
  | error message => exact ⟨fun h => congrArg _ h, fun h => Outcome.error.inj h⟩

theorem truthful_testConnectivityServer_iff (h : Truthful c) (id : Str) (outcome : Outcome) :
    Truthful (c.testConnectivityServer id outcome) ↔ Harmless c (.testConnectivityServer id outcome) := by
  rw [Catalog.testConnectivityServer, Harmless]
  cases hserver : c.rows.servers.get? id with
  | none =>
      refine ⟨fun _ ⟨server, hsome, _⟩ => ?_, fun _ => h⟩
      rw [hserver] at hsome
      cases hsome
  | some server =>
      have hsome : (c.rows.servers.get? id).isSome = true := by rw [hserver]; rfl
      change Truthful (if server.protocol ≠ lit "opc_ua" ∧ parseHostPort server.endpoint = none then c else _) ↔ _
      by_cases hraises : server.protocol ≠ lit "opc_ua" ∧ parseHostPort server.endpoint = none
      · rw [if_pos hraises]
        refine ⟨fun _ ⟨found, hfound, haddress⟩ => absurd hraises ?_, fun _ => h⟩
        rw [hserver] at hfound
        rwa [Option.some.inj hfound]
      · rw [if_neg hraises, truthful_recordTest h hsome]
        have herror : (if outcome = .ok ∧ (c.flags id).lastStatus = .pending then edgeApplyError else outcome.message) =
            edgeApplyError ↔ outcome = .ok ∧ (c.flags id).lastStatus = .pending ∨ outcome = .error edgeApplyError := by
          by_cases hpending : outcome = .ok ∧ (c.flags id).lastStatus = .pending
          · rw [if_pos hpending]
            exact ⟨fun _ => .inl hpending, fun _ => rfl⟩
          · rw [if_neg hpending, message_eq_iff]
            exact ⟨.inr, fun h => h.resolve_left hpending⟩
        rw [herror]
        exact ⟨fun himp _ => himp, fun himp => himp ⟨server, hserver, hraises⟩⟩

theorem truthful_testOpcUaConnection_iff (h : Truthful c) (endpoint : Str) (outcome : Outcome) :
    Truthful (c.testOpcUaConnection endpoint outcome) ↔ Harmless c (.testOpcUaConnection endpoint outcome) := by
  rw [Catalog.testOpcUaConnection, Harmless]
  cases hat : serverAt c.rows endpoint with
  | none =>
      refine ⟨fun _ id hid => ?_, fun _ => h⟩
      cases hid
  | some id =>
      obtain ⟨entry, hentry, hid⟩ := Option.map_eq_some_iff.mp hat
      have hsome : (c.rows.servers.get? id).isSome = true :=
        Option.isSome_iff_exists.mpr ⟨_, Dict.get?_of_mem (v := entry.2) (hid ▸ List.mem_of_find?_eq_some hentry)⟩
      refine (truthful_recordTest h hsome _ _).trans ?_
      rw [message_eq_iff]
      exact ⟨fun himp other hother hunapplied => himp (Option.some.inj hother ▸ hunapplied), fun himp => himp id rfl⟩

/-- The harmless operations are those that leave the flags truthful. -/
theorem truthful_perform_iff (h : Truthful c) (hv : Vocabulary c.rows) (operation : Operation) :
    Truthful (c.perform operation) ↔ Harmless c operation := by
  cases operation with
  | write w => exact ⟨fun _ => trivial, fun _ => truthful_write h hv w⟩
  | liveApply mutatedIds applied => exact ⟨fun _ => trivial, fun _ => truthful_liveApply h mutatedIds applied⟩
  | testConnectivityServer id outcome => exact truthful_testConnectivityServer_iff h id outcome
  | testOpcUaConnection endpoint outcome => exact truthful_testOpcUaConnection_iff h endpoint outcome

theorem vocabulary_perform (hv : Vocabulary c.rows) (operation : Operation) : Vocabulary (c.perform operation).rows := by
  cases operation with
  | write w =>
      change Vocabulary (c.write w).rows
      rw [Catalog.write]
      split
      · rename_i haccepted
        exact servers_apply haccepted hv
      · exact hv
  | liveApply mutatedIds applied =>
      have hrows : (c.finishLiveApply mutatedIds applied).rows = c.rows := by
        rw [Catalog.finishLiveApply]
        cases edgeAdaptersFromRows c.rows.servers.entries c.rows.tags <;> cases applied <;> rfl
      exact hrows ▸ hv
  | testConnectivityServer id outcome =>
      have hrows : (c.testConnectivityServer id outcome).rows = c.rows := by
        rw [Catalog.testConnectivityServer]
        split
        · rfl
        · split <;> rfl
      exact hrows ▸ hv
  | testOpcUaConnection endpoint outcome =>
      have hrows : (c.testOpcUaConnection endpoint outcome).rows = c.rows := by
        rw [Catalog.testOpcUaConnection]
        split <;> rfl
      exact hrows ▸ hv

/-! ## Runs -/

/-- Operations in any order, from a catalog that the broker has. -/
def catalog : System Catalog Operation where
  init c := c.unapplied = ∅ ∧ Vocabulary c.rows
  step c operation c' := c' = c.perform operation

/-- In a run of harmless operations every server that waits says so. -/
theorem flag_truthful (h : (catalog.restrict Harmless).Reachable c) : Truthful c := by
  have hboth : Truthful c ∧ Vocabulary c.rows := by
    refine System.invariant (I := fun c => Truthful c ∧ Vocabulary c.rows) ?_ ?_ h
    · rintro c ⟨hnone, hv⟩
      exact ⟨fun id hid => absurd (hnone ▸ hid) (Set.notMem_empty id), hv⟩
    · rintro c operation _ - ⟨ht, hv⟩ ⟨hharmless, rfl⟩
      exact ⟨(truthful_perform_iff ht hv operation).mpr hharmless, vocabulary_perform hv operation⟩
  exact hboth.1

/-! ## Two tests -/

theorem unapplied_testConnectivityServer (id : Str) (outcome : Outcome) :
    (c.testConnectivityServer id outcome).unapplied = c.unapplied := by
  rw [Catalog.testConnectivityServer]
  split
  · rfl
  · split <;> rfl

theorem unapplied_refused (mutatedIds : List Str) :
    (c.finishLiveApply mutatedIds .edgeApplyError).unapplied = c.unapplied := by
  rw [Catalog.finishLiveApply]
  cases edgeAdaptersFromRows c.rows.servers.entries c.rows.tags <;> rfl

def linePlc : EdgeServer := ⟨lit "s7", lit "10.0.0.5:102", none⟩

def noServers : Catalog := ⟨⟨.empty, .empty⟩, fun _ => ⟨.untested, []⟩, ∅⟩

/-- The server is saved, the broker does not accept it, and a test succeeds. -/
def testedPlc : Catalog :=
  ((noServers.perform (.write (.saveServer (lit "plc-1") linePlc))).perform
    (.liveApply [lit "plc-1"] .edgeApplyError)).perform (.testConnectivityServer (lit "plc-1") .ok)

theorem reachable_testedPlc {ok : Catalog → Operation → Prop}
    (hok : ∀ c operation, Harmless c operation → ok c operation) : (catalog.restrict ok).Reachable testedPlc := by
  have hpending : ((noServers.perform (.write (.saveServer (lit "plc-1") linePlc))).perform
      (.liveApply [lit "plc-1"] .edgeApplyError)).flags (lit "plc-1") = pendingFlag := by decide +kernel
  have hnone : Vocabulary noServers.rows := fun id server h => by cases h
  refine .step (i := .testConnectivityServer (lit "plc-1") .ok) (.step (i := .liveApply [lit "plc-1"] .edgeApplyError)
    (.step (i := .write (.saveServer (lit "plc-1") linePlc)) (.init ⟨rfl, hnone⟩) ⟨hok _ _ trivial, rfl⟩)
    ⟨hok _ _ trivial, rfl⟩) ⟨hok _ _ fun _ _ => .inl ⟨rfl, ?_⟩, rfl⟩
  rw [hpending]
  rfl

/-- After one test the server still says that it waits. -/
theorem testedPlc_truthful : Truthful testedPlc := flag_truthful (reachable_testedPlc fun _ _ h => h)

/-- The second test finds it connected. -/
theorem second_test_clears : ¬ ∀ c, catalog.Reachable c → Truthful c := by
  intro h
  have hbefore : (catalog.restrict fun _ _ => True).Reachable testedPlc :=
    reachable_testedPlc fun _ _ _ => trivial
  have hreach : catalog.Reachable (testedPlc.perform (.testConnectivityServer (lit "plc-1") .ok)) :=
    .step hbefore.of_restrict rfl
  have hwaits : lit "plc-1" ∈ (testedPlc.perform (.testConnectivityServer (lit "plc-1") .ok)).unapplied := by
    refine (Set.ext_iff.mp (unapplied_testConnectivityServer _ _) _).mpr ?_
    refine (Set.ext_iff.mp (unapplied_testConnectivityServer _ _) _).mpr ?_
    refine (Set.ext_iff.mp (unapplied_refused _) _).mpr (.inr fun hsame => ?_)
    have hserver := congrArg (fun rows => rows.1.isSome) hsame
    revert hserver
    decide +kernel
  have herror := h _ hreach _ hwaits (by decide +kernel)
  revert herror
  decide +kernel

end Uns.Edge
