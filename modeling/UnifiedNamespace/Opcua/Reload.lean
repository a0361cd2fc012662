/-
# `Opcua.Reload` — when the connector notices that the catalog has changed

The supervisor of `main.py` over committed catalogs.  Every read of it is a step of its
own, and transactions commit between them, with rows stamped by the time they began.  A
change is noticed by `max(updated_at)` alone.  `Careful` says of a step that it hides no
change: a commit after which the maximum is the baseline found it there and changed
nothing, and a load that fails, or falls back to another mapping, does so while the maximum
is another.  Then a poll that keeps the connectors finds them as the catalog has them
(`polls_sound`); a commit that hides a change is missed by the next poll (`change_missed`).
-/
import UnifiedNamespace.Opcua.Catalog

namespace Uns.Opcua

open Py Lib

/-! ## Stamped rows -/

structure ServerRow where
  server : ConnectivityServer
  createdAt : ℤ
  updatedAt : ℤ

structure TagRow where
  tag : ConnectivityTag
  updatedAt : ℤ

/-- The committed rows of the catalog. -/
structure Rows where
  servers : Dict Str ServerRow
  tags : Dict (Str × Str) TagRow

/-- What a transaction of the repository writes. -/
inductive Write where
  | saveServer (id : Str) (server : ConnectivityServer)
  | recordServer (id : Str)
  | saveTag (serverId nodeId : Str) (tag : ConnectivityTag)
  | updateTag (serverId nodeId : Str) (patch : ConnectivityTag → ConnectivityTag)
  | deleteServer (id : Str)

/-- A row is stamped with the time its transaction began; a tag wants its server. -/
def Write.apply (start : ℤ) (rows : Rows) : Write → Rows
  | .saveServer id server =>
      { rows with servers := rows.servers.update id ⟨server, start, start⟩ fun row =>
          { row with server := server, updatedAt := start } }
  | .recordServer id =>
      { rows with servers := rows.servers.mapValues fun key row =>
          if key = id then { row with updatedAt := start } else row }
  | .saveTag serverId nodeId tag =>
      if (rows.servers.get? serverId).isSome then
        { rows with tags := rows.tags.update (serverId, nodeId) ⟨tag, start⟩ fun _ => ⟨tag, start⟩ }
      else rows
  | .updateTag serverId nodeId patch =>
      { rows with tags := rows.tags.mapValues fun key row =>
          if key = (serverId, nodeId) then ⟨patch row.tag, start⟩ else row }
  | .deleteServer id =>
      { servers := rows.servers.erase id
        tags := rows.tags.filter fun key _ => decide (key.1 ≠ id) }

def Rows.commit (rows : Rows) (start : ℤ) (writes : List Write) : Rows := writes.foldl (Write.apply start) rows

/-! ## The queries -/

/-- The order of texts in the database. -/
abbrev Collation := Str → Str → Bool

/-- `max(updated_at)` of the servers. -/
def Rows.serverAt (rows : Rows) : Option ℤ := (rows.servers.entries.map (·.2.updatedAt)).max?

/-- `max(updated_at)` of the tags. -/
def Rows.tagAt (rows : Rows) : Option ℤ := (rows.tags.entries.map (·.2.updatedAt)).max?

/-- The `max` of the candidates. -/
def latest : Option ℤ → Option ℤ → Option ℤ
  | some serverAt, some tagAt => some (max serverAt tagAt)
  | some serverAt, none => some serverAt
  | none, tagAt => tagAt

/-- `catalog_updated_at`, when both its queries see the same rows. -/
def Rows.catalogUpdatedAt (rows : Rows) : Option ℤ := latest rows.serverAt rows.tagAt

def Rows.listServers (rows : Rows) (collation : Collation) : List (Str × ConnectivityServer) :=
  (rows.servers.entries.insertionSort fun a b => a.2.createdAt < b.2.createdAt ∨
    a.2.createdAt = b.2.createdAt ∧ collation a.1 b.1 = true).map fun e => (e.1, e.2.server)

def Rows.listSubscribedTags (rows : Rows) (collation : Collation) (serverId : Str) :
    List (Str × ConnectivityTag) :=
  ((rows.tags.entries.filter fun e => e.1.1 = serverId).insertionSort fun a b =>
    collation a.1.2 b.1.2 = true).map fun e => (e.1.2, e.2.tag)

/-! ## The fold -/

/-- A server with its tags, as they are read. -/
abbrev ServerTags := ConnectivityServer × List (Str × ConnectivityTag)

/-- One round of the loop of `servers_from_catalog`. -/
def ServerTags.config (read : ServerTags) : Option ServerConfig :=
  let subscribed := read.2.filter fun tag => tag.2.subscribed
  if read.1.protocol ≠ opcUa then none
  else if subscribed.isEmpty then none
  else
    some {
      name := read.1.name
      url := read.1.endpoint
      publishingIntervalMs := defaultPublishingIntervalMs
      tags := subscribed.map fun tag => ⟨tag.1, tag.2.mqttTopic, [], tag.2.mqttTopic⟩ }

def serversFromCatalog (read : List ServerTags) : List ServerConfig := read.filterMap ServerTags.config

/-- A catalog that is read at once yields what its reading in turns does. -/
theorem config_eq (c : Catalog) (id : Str) (server : ConnectivityServer) :
    c.config id server = ServerTags.config (server, c.tagsOf id) := rfl

/-- What `servers_from_catalog` yields for the committed catalog. -/
def Rows.yields (rows : Rows) (collation : Collation) : List ServerConfig :=
  serversFromCatalog ((rows.listServers collation).map fun e => (e.2, rows.listSubscribedTags collation e.1))

/-! ## The supervisor -/

def resolveServers (yaml catalogServers : List ServerConfig) : List ServerConfig :=
  if catalogServers.isEmpty then yaml else catalogServers

def shouldReload (prev current : Option ℤ) : Bool := current.isSome && decide (current ≠ prev)

/-- Where the supervisor is between two reads; `baseline` is its `last_updated_at`. -/
inductive Phase where
  | unread
  | unreadTags (serverAt : Option ℤ)
  | starting (baseline : Option ℤ)
  | loading (baseline : Option ℤ) (read : List ServerTags) (todo : List (Str × ConnectivityServer))
  | running (baseline : Option ℤ) (started : List ServerConfig)
  | polling (baseline : Option ℤ) (started : List ServerConfig) (serverAt : Option ℤ)

structure Setting where
  collation : Collation
  /-- `opcua.servers`. -/
  yaml : List ServerConfig

structure World where
  rows : Rows
  phase : Phase

/-- The next read of the supervisor, which reaches the database or not. -/
def Phase.read (setting : Setting) (rows : Rows) (reached : Bool) : Phase → Phase
  | .unread => if reached then .unreadTags rows.serverAt else .starting none
  | .unreadTags serverAt => .starting (if reached then latest serverAt rows.tagAt else none)
  | .starting baseline =>
      if reached then .loading baseline [] (rows.listServers setting.collation)
      else .running baseline (resolveServers setting.yaml [])
  | .loading baseline read (e :: todo) =>
      if reached then .loading baseline (read ++ [(e.2, rows.listSubscribedTags setting.collation e.1)]) todo
      else .running baseline (resolveServers setting.yaml [])
  | .loading baseline read [] => .running baseline (resolveServers setting.yaml (serversFromCatalog read))
  | .running baseline started =>
      if reached then .polling baseline started rows.serverAt else .running baseline started
  | .polling baseline started serverAt =>
      if reached then
        if shouldReload baseline (latest serverAt rows.tagAt) then .starting (latest serverAt rows.tagAt)
        else .running baseline started
      else .running baseline started

/-- The connectors ended by themselves, and the back-off after it; a poll under way is given up. -/
def Phase.restart : Phase → Phase
  | .running baseline _ => .starting baseline
  | .polling baseline _ _ => .starting baseline
  | phase => phase

inductive Step where
  | commit (start : ℤ) (writes : List Write)
  | read (reached : Bool)
  | restart

def World.next (setting : Setting) (w : World) : Step → World
  | .commit start writes => { w with rows := w.rows.commit start writes }
  | .read reached => { w with phase := w.phase.read setting w.rows reached }
  | .restart => { w with phase := w.phase.restart }

/-! ## What a poll owes -/

/-- A poll of a catalog that is reached keeps the connectors only when they are those of the catalog. -/
def World.Answered (setting : Setting) (w : World) (step : Step) : Prop :=
  match w.phase, step with
  | .polling baseline started serverAt, .read true =>
      shouldReload baseline (latest serverAt w.rows.tagAt) = false → started = w.rows.yields setting.collation
  | _, _ => True

def AllAnswered (setting : Setting) (w : World) : List Step → Prop
  | [] => True
  | step :: steps => w.Answered setting step ∧ AllAnswered setting (w.next setting step) steps

/-! ## Careful steps -/

/-- What the poll under way, or one begun now, would read makes no reload. -/
def World.unmoved (w : World) : Bool :=
  match w.phase with
  | .unread => false
  | .unreadTags _ => false
  | .starting baseline => !shouldReload baseline w.rows.catalogUpdatedAt
  | .loading baseline _ _ => !shouldReload baseline w.rows.catalogUpdatedAt
  | .running baseline _ => !shouldReload baseline w.rows.catalogUpdatedAt
  | .polling baseline _ serverAt =>
      !shouldReload baseline w.rows.catalogUpdatedAt || !shouldReload baseline (latest serverAt w.rows.tagAt)

/-- What the load under way would yield if it ended now, or what the connectors were started with. -/
def World.held (setting : Setting) (w : World) : Option (List ServerConfig) :=
  match w.phase with
  | .loading _ read todo => some (serversFromCatalog
      (read ++ todo.map fun e => (e.2, w.rows.listSubscribedTags setting.collation e.1)))
  | .running _ started => some started
  | .polling _ started _ => some started
  | _ => none

/-- The step hides no change of the catalog. -/
def World.Careful (setting : Setting) (w : World) : Step → Prop
  | .commit start writes =>
      let after : World := w.next setting (.commit start writes)
      w.held setting ≠ none → after.unmoved = true → w.unmoved = true ∧
        after.rows.yields setting.collation = w.rows.yields setting.collation ∧
          after.held setting = w.held setting
  | .read reached =>
      match w.phase with
      | .starting _ => reached = false → w.unmoved = false
      | .loading _ _ (_ :: _) => reached = false → w.unmoved = false
      | .loading _ read [] => serversFromCatalog read = [] → setting.yaml ≠ [] → w.unmoved = false
      | _ => True
  | .restart => True

def AllCareful (setting : Setting) (w : World) : List Step → Prop
  | [] => True
  | step :: steps => w.Careful setting step ∧ AllCareful setting (w.next setting step) steps

/-! ## One step -/

/-- While the maximum is where it was, what is held is what the catalog yields. -/
def World.Faithful (setting : Setting) (w : World) : Prop :=
  ∀ held, w.held setting = some held → w.unmoved = true → held = w.rows.yields setting.collation

section

variable {setting : Setting} {w : World}

theorem World.Faithful.answered (h : w.Faithful setting) (step : Step) : w.Answered setting step := by
  obtain ⟨rows, phase⟩ := w
  cases phase with
  | polling baseline started serverAt =>
      cases step with
      | read reached =>
          cases reached with
          | true =>
              intro hkeep
              have hquiet : (!shouldReload baseline (latest serverAt rows.tagAt)) = true := by
                rw [Bool.not_eq_true']
                exact hkeep
              exact h started rfl (Bool.or_eq_true_iff.mpr (.inr hquiet))
          | false => trivial
      | commit => trivial
      | restart => trivial
  | _ => trivial

theorem faithful_commit {start : ℤ} {writes : List Write} (h : w.Faithful setting)
    (hcareful : w.Careful setting (.commit start writes)) :
    (w.next setting (.commit start writes)).Faithful setting := by
  intro held hheld hunmoved
  have hwatching : w.held setting ≠ none := by
    intro hnone
    obtain ⟨rows, phase⟩ := w
    cases phase <;> cases hnone <;> cases hheld
  obtain ⟨hbefore, hyields, hsame⟩ := hcareful hwatching hunmoved
  rw [hyields]
  exact h held (hsame.symm.trans hheld) hbefore

theorem faithful_restart (h : w.Faithful setting) : (w.next setting .restart).Faithful setting := by
  obtain ⟨rows, phase⟩ := w
  cases phase with
  | running => exact fun held hheld => nomatch hheld
  | polling => exact fun held hheld => nomatch hheld
  | _ => exact h

theorem resolveServers_eq {yaml catalogServers : List ServerConfig} (h : catalogServers = [] → yaml = []) :
    resolveServers yaml catalogServers = catalogServers := by
  cases catalogServers with
  | nil => exact h rfl
  | cons config configs => rfl

theorem faithful_read {reached : Bool} (h : w.Faithful setting)
    (hcareful : w.Careful setting (.read reached)) : (w.next setting (.read reached)).Faithful setting := by
  obtain ⟨rows, phase⟩ := w
  cases phase with
  | unread => cases reached <;> exact fun held hheld => nomatch hheld
  | unreadTags serverAt => exact fun held hheld => nomatch hheld
  | starting baseline =>
      cases reached with
      | true =>
          intro held hheld _
          exact (Option.some.inj hheld).symm
      | false =>
          intro held _ hunmoved
          exact absurd ((hcareful rfl).symm.trans hunmoved) Bool.false_ne_true
  | loading baseline read todo =>
      cases todo with
      | cons e todo =>
          cases reached with
          | true =>
              intro held hheld hunmoved
              refine h held ?_ hunmoved
              rw [← hheld]
              simp only [World.held, World.next, Phase.read, if_true, List.map_cons, List.append_assoc,
                List.cons_append, List.nil_append]
          | false =>
              intro held _ hunmoved
              exact absurd ((hcareful rfl).symm.trans hunmoved) Bool.false_ne_true
      | nil =>
          intro held hheld hunmoved
          have hread : serversFromCatalog read = rows.yields setting.collation := by
            refine h _ ?_ hunmoved
            simp only [World.held, List.map_nil, List.append_nil]
          have hyaml : serversFromCatalog read = [] → setting.yaml = [] := by
            intro hnone
            by_contra hsome
            exact absurd ((hcareful hnone hsome).symm.trans hunmoved) Bool.false_ne_true
          rw [← Option.some.inj hheld, resolveServers_eq hyaml]
          exact hread
  | running baseline started =>
      cases reached with
      | true =>
          intro held hheld hunmoved
          refine h held hheld ?_
          rcases Bool.or_eq_true_iff.mp hunmoved with hunmoved | hunmoved <;> exact hunmoved
      | false => exact h
  | polling baseline started serverAt =>
      cases reached with
      | true =>
          intro held hheld _
          cases hreload : shouldReload baseline (latest serverAt rows.tagAt) with
          | true =>
              simp only [World.held, World.next, Phase.read, hreload, if_true] at hheld
              cases hheld
          | false =>
              simp only [World.held, World.next, Phase.read, hreload, if_true, Bool.false_eq_true, if_false] at hheld
              cases hheld
              exact h.answered (.read true) hreload
      | false =>
          intro held hheld hunmoved
          refine h held hheld ?_
          rw [World.unmoved]
          exact Bool.or_eq_true_iff.mpr (.inl hunmoved)

theorem faithful_next {step : Step} (h : w.Faithful setting) (hcareful : w.Careful setting step) :
    (w.next setting step).Faithful setting := by
  cases step with
  | commit start writes => exact faithful_commit h hcareful
  | read reached => exact faithful_read h hcareful
  | restart => exact faithful_restart h

/-! ## Whole runs -/

theorem World.Faithful.allAnswered {steps : List Step} (h : w.Faithful setting)
    (hcareful : AllCareful setting w steps) : AllAnswered setting w steps := by
  induction steps generalizing w with
  | nil => trivial
  | cons step steps ih => exact ⟨h.answered step, ih (faithful_next h hcareful.1) hcareful.2⟩

/-- A commit that leaves the maximum at the baseline and changes what the catalog yields is
missed by the poll after it. -/
theorem change_missed {rows : Rows} {baseline : Option ℤ} {start : ℤ} {writes : List Write}
    (hbaseline : shouldReload baseline (rows.commit start writes).catalogUpdatedAt = false)
    (hchange : (rows.commit start writes).yields setting.collation ≠ rows.yields setting.collation) :
    ¬ AllAnswered setting ⟨rows, .running baseline (rows.yields setting.collation)⟩
      [.commit start writes, .read true, .read true] := by
  rintro ⟨_, _, hanswered, _⟩
  exact hchange (hanswered hbaseline).symm

end

/-- In every run from the start of the supervisor, whatever was committed before it, whose
steps hide no change, a poll that keeps the connectors finds them as the catalog has them. -/
theorem polls_sound (setting : Setting) (rows : Rows) {steps : List Step}
    (h : AllCareful setting ⟨rows, .unread⟩ steps) : AllAnswered setting ⟨rows, .unread⟩ steps :=
  World.Faithful.allAnswered (fun _ hheld => nomatch hheld) h

/-! ### A deleted server -/

def byLength : Setting := ⟨fun a b => decide (a.length ≤ b.length), []⟩

def pump (name : Str) : ConnectivityServer := ⟨name, opcUa, lit "opc.tcp://plc:4840"⟩

def pumpTag (topic : Str) : ConnectivityTag := ⟨topic, topic, topic, true⟩

/-- Two servers with a tag each, the second saved later. -/
def twoServers : Rows :=
  ((⟨.empty, .empty⟩ : Rows).commit 1 [.saveServer (lit "a") (pump (lit "A")), .saveTag (lit "a") (lit "n") (pumpTag (lit "x"))]).commit
    2 [.saveServer (lit "b") (pump (lit "B")), .saveTag (lit "b") (lit "n") (pumpTag (lit "y"))]

/-- From the start to the end of the first load of both. -/
def firstLoad : List Step := List.replicate 6 (.read true)

theorem polls_sound_twoServers :
    AllAnswered byLength ⟨twoServers, .unread⟩ (firstLoad ++ [.read true, .read true]) :=
  polls_sound byLength twoServers ⟨trivial, trivial, fun h => (nomatch h), fun h => (nomatch h),
    fun h => (nomatch h), fun _ h => absurd rfl h, trivial, trivial, trivial⟩

/-- The deletion of the server saved first is missed. -/
theorem deletion_missed :
    ¬ AllAnswered byLength ⟨twoServers, .unread⟩
      (firstLoad ++ [.commit 3 [.deleteServer (lit "a")], .read true, .read true]) := by
  rintro ⟨_, _, _, _, _, _, _, _, hanswered, _⟩
  have hlength := congrArg List.length (hanswered (by decide))
  revert hlength
  decide

end Uns.Opcua
