/-
# `FactoryAgent.Conversations` — the two conversation stores

`conversations.py` and `pg_store.py`: one interface, once over a dictionary and once in
SQL.  The memory store is what the tests use.  A SQL query reads the rows in an order the
database chooses (`Scan`), sorts them where the statement says so, and refuses a text that
PostgreSQL cannot hold and a limit that is no `bigint`; the exception is the outcome then.
-/
import UnifiedNamespace.Lib.Dict
import UnifiedNamespace.Python.Str

namespace Uns.FactoryAgent

open Py Lib

/-! ## Records -/

inductive Role where
  | user
  | assistant
deriving DecidableEq

inductive Source where
  | model
  | historian
  | live
  | alarms
deriving DecidableEq

structure Citation where
  asset : Str
  topic : Str
  time : Str
  source : Source
deriving DecidableEq

structure Message where
  id : Str
  conversationId : Str
  role : Role
  body : Str
  citations : List Citation
  createdAt : Int
deriving DecidableEq

structure Conversation where
  id : Str
  subject : Str
  title : Str
  createdAt : Int
  updatedAt : Int
deriving DecidableEq

/-- Thirty days, in microseconds. -/
def retention : Int := 30 * 24 * 3600 * 1000000

def newChat : Str := lit "New chat"

/-- `_expired`. -/
def expired (c : Conversation) (now : Int) : Bool := decide (retention < now - c.updatedAt)

/-- The title after a message: the first words of the user. -/
def titled (title : Str) (role : Role) (body : Str) : Str :=
  if role = .user ∧ title = newChat then body.take 60 else title

/-- The newest first; equal ones stay in their order. -/
def newestFirst (cs : List Conversation) : List Conversation :=
  cs.insertionSort fun a b => b.updatedAt ≤ a.updatedAt

/-! ## The interface -/

inductive Op where
  | listFor (subject : Str) (now : Int)
  | get (id subject : Str) (now : Int)
  | create (id subject : Str) (now : Int)
  | delete (id subject : Str)
  | append (messageId id subject : Str) (role : Role) (body : Str) (citations : List Citation) (now : Int)
  | lastMessages (id subject : Str) (limit clock : Int)
  | purgeExpired (now : Int)

/-- What a call returns or raises. -/
inductive Outcome where
  | conversations (cs : List Conversation)
  | conversation (c : Option Conversation)
  | deleted (found : Bool)
  | message (m : Message)
  | messages (ms : List Message)
  | purged (n : Nat)
  | keyError
  | databaseError
deriving DecidableEq

/-! ## In memory -/

structure ConversationRecord where
  conversation : Conversation
  messages : List Message

abbrev MemoryStore := Dict Str ConversationRecord

namespace MemoryStore

/-- The record of a conversation of the subject. -/
def owned (m : MemoryStore) (id subject : Str) : Option ConversationRecord :=
  (m.get? id).filter fun record => record.conversation.subject = subject

def listFor (m : MemoryStore) (subject : Str) (now : Int) : List Conversation :=
  newestFirst ((m.entries.map (·.2.conversation)).filter fun c =>
    decide (c.subject = subject) && !expired c now)

def get (m : MemoryStore) (id subject : Str) (now : Int) : Option Conversation :=
  ((m.owned id subject).map (·.conversation)).filter fun c => !expired c now

/-- A message is put last, and the conversation is as new as it. -/
def appended (message : Message) (record : ConversationRecord) : ConversationRecord where
  conversation :=
    { record.conversation with
      title := titled record.conversation.title message.role message.body
      updatedAt := message.createdAt }
  messages := record.messages ++ [message]

/-- `messages[-limit:]`. -/
def lastOf (messages : List Message) (limit : Int) : List Message :=
  if 0 < limit then messages.drop (messages.length - limit.toNat) else messages.drop (-limit).toNat

def call (m : MemoryStore) : Op → Outcome × MemoryStore
  | .listFor subject now => (.conversations (m.listFor subject now), m)
  | .get id subject now => (.conversation (m.get id subject now), m)
  | .create id subject now =>
      let c : Conversation := ⟨id, subject, newChat, now, now⟩
      (.conversation (some c), m.update id ⟨c, []⟩ fun _ => ⟨c, []⟩)
  | .delete id subject =>
      match m.owned id subject with
      | none => (.deleted false, m)
      | some _ => (.deleted true, m.filter fun key _ => decide (key ≠ id))
  | .append messageId id subject role body citations now =>
      match m.get id subject now with
      | none => (.keyError, m)
      | some _ =>
          let message : Message := ⟨messageId, id, role, body, citations, now⟩
          (.message message, m.mapValues fun key record =>
            if key = id then appended message record else record)
  | .lastMessages id subject limit _ =>
      (.messages (((m.owned id subject).map fun record => lastOf record.messages limit).getD []), m)
  | .purgeExpired now =>
      (.purged (m.entries.filter fun e => expired e.2.conversation now).length,
        m.filter fun _ record => !expired record.conversation now)

end MemoryStore

/-! ## In PostgreSQL -/

/-- The order in which the rows of a table are read. -/
structure Scan where
  order : {α : Type} → List α → List α
  perm : ∀ {α : Type} (rows : List α), (order rows).Perm rows

/-- A text of the database: it encodes, and holds no NUL. -/
def storable (s : Str) : Bool := s.all isScalar && decide (0 ∉ s)

def Citation.storable (c : Citation) : Bool :=
  FactoryAgent.storable c.asset && FactoryAgent.storable c.topic && FactoryAgent.storable c.time

/-- A `bigint` that `LIMIT` takes. -/
def limitAccepted (limit : Int) : Bool := decide (0 ≤ limit ∧ limit < 2 ^ 63)

def Source.text : Source → Str
  | .model => lit "model"
  | .historian => lit "historian"
  | .live => lit "live"
  | .alarms => lit "alarms"

/-- An object of the `citations` column. -/
structure CitationRow where
  asset : Str
  topic : Str
  time : Str
  source : Str

structure MessageRow where
  id : Str
  conversationId : Str
  role : Role
  body : Str
  citations : List CitationRow
  createdAt : Int

def citationPayload (c : Citation) : CitationRow := ⟨c.asset, c.topic, c.time, c.source.text⟩

/-- A source that is not in the vocabulary is the historian. -/
def parseSource (s : Str) : Source :=
  if s = Source.model.text then .model
  else if s = Source.live.text then .live
  else if s = Source.alarms.text then .alarms
  else .historian

def parseCitation (row : CitationRow) : Citation := ⟨row.asset, row.topic, row.time, parseSource row.source⟩

def rowToMessage (row : MessageRow) : Message :=
  ⟨row.id, row.conversationId, row.role, row.body, row.citations.map parseCitation, row.createdAt⟩

def messageToRow (m : Message) : MessageRow :=
  ⟨m.id, m.conversationId, m.role, m.body, m.citations.map citationPayload, m.createdAt⟩

structure PostgresStore where
  conversations : List Conversation
  messages : List MessageRow

namespace PostgresStore

/-- `WHERE id = :id AND subject = :subject AND updated_at >= :cutoff`, the first row. -/
def get (p : PostgresStore) (scan : Scan) (id subject : Str) (now : Int) : Option Conversation :=
  ((scan.order p.conversations).filter fun c =>
    decide (c.id = id) && decide (c.subject = subject) && decide (now - retention ≤ c.updatedAt)).head?

def listFor (p : PostgresStore) (scan : Scan) (subject : Str) (now : Int) : List Conversation :=
  newestFirst ((scan.order p.conversations).filter fun c =>
    decide (c.subject = subject) && decide (now - retention ≤ c.updatedAt))

/-- `ORDER BY created_at ASC LIMIT :limit`. -/
def selectMessages (p : PostgresStore) (scan : Scan) (id : Str) (limit : Nat) : List Message :=
  ((((scan.order p.messages).filter fun row => row.conversationId = id).insertionSort
    fun a b => a.createdAt ≤ b.createdAt).take limit).map rowToMessage

/-- `ON DELETE CASCADE`. -/
def deleteWhere (p : PostgresStore) (gone : Conversation → Bool) : PostgresStore where
  conversations := p.conversations.filter fun c => !gone c
  messages := p.messages.filter fun row =>
    !p.conversations.any fun c => gone c && decide (c.id = row.conversationId)

/-- The two statements of `append`. -/
def write (p : PostgresStore) (message : Message) (subject title : Str) : PostgresStore where
  conversations := p.conversations.map fun c =>
    if c.id = message.conversationId ∧ c.subject = subject then
      { c with title := title, updatedAt := message.createdAt }
    else c
  messages := p.messages ++ [messageToRow message]

def call (p : PostgresStore) (scan : Scan) : Op → Outcome × PostgresStore
  | .listFor subject now =>
      if storable subject then (.conversations (p.listFor scan subject now), p) else (.databaseError, p)
  | .get id subject now =>
      if storable id && storable subject then (.conversation (p.get scan id subject now), p)
      else (.databaseError, p)
  | .create id subject now =>
      let c : Conversation := ⟨id, subject, newChat, now, now⟩
      if storable id && storable subject && !p.conversations.any fun c => c.id = id then
        (.conversation (some c), { p with conversations := p.conversations ++ [c] })
      else (.databaseError, p)
  | .delete id subject =>
      if storable id && storable subject then
        (.deleted (p.conversations.any fun c => decide (c.id = id) && decide (c.subject = subject)),
          p.deleteWhere fun c => decide (c.id = id) && decide (c.subject = subject))
      else (.databaseError, p)
  | .append messageId id subject role body citations now =>
      if storable id && storable subject then
        match p.get scan id subject now with
        | none => (.keyError, p)
        | some c =>
            let message : Message := ⟨messageId, id, role, body, citations, now⟩
            if storable messageId && storable body && citations.all Citation.storable &&
                !p.messages.any fun row => row.id = messageId then
              (.message message, p.write message subject (titled c.title role body))
            else (.databaseError, p)
      else (.databaseError, p)
  | .lastMessages id subject limit clock =>
      if storable id && storable subject then
        match p.get scan id subject clock with
        | none => (.messages [], p)
        | some _ =>
            if limitAccepted limit then (.messages (p.selectMessages scan id limit.toNat), p)
            else (.databaseError, p)
      else (.databaseError, p)
  | .purgeExpired now =>
      (.purged (p.conversations.filter fun c => decide (c.updatedAt < now - retention)).length,
        p.deleteWhere fun c => decide (c.updatedAt < now - retention))

end PostgresStore

/-! ## Small facts -/

theorem not_expired (c : Conversation) (now : Int) :
    (!expired c now) = decide (now - retention ≤ c.updatedAt) := by
  rw [expired, ← decide_not, decide_eq_decide]
  omega

theorem expired_iff (c : Conversation) (now : Int) :
    expired c now = decide (c.updatedAt < now - retention) := by
  rw [expired, decide_eq_decide]
  omega

theorem parseSource_text (s : Source) : parseSource s.text = s := by
  cases s <;> decide

theorem rowToMessage_messageToRow (m : Message) : rowToMessage (messageToRow m) = m := by
  have hcitation : ∀ c : Citation, parseCitation (citationPayload c) = c := by
    intro c
    rw [citationPayload, parseCitation, parseSource_text]
  obtain ⟨id, conversationId, role, body, citations, createdAt⟩ := m
  simp only [messageToRow, rowToMessage, List.map_map, Function.comp_def, hcitation, List.map_id']

theorem newestFirst_perm (cs : List Conversation) : (newestFirst cs).Perm cs :=
  List.perm_insertionSort _ cs

/-- Conversations of distinct age are listed in one way. -/
theorem newestFirst_eq {cs ds : List Conversation} (h : cs.Perm ds) (hd : (ds.map (·.updatedAt)).Nodup) :
    newestFirst cs = newestFirst ds := by
  have hsorted : ∀ es : List Conversation,
      (newestFirst es).Pairwise fun a b => b.updatedAt ≤ a.updatedAt := by
    intro es
    have : Std.Total fun a b : Conversation => b.updatedAt ≤ a.updatedAt := ⟨fun a b => le_total _ _⟩
    have : IsTrans Conversation fun a b => b.updatedAt ≤ a.updatedAt := ⟨fun a b c hab hbc => hbc.trans hab⟩
    exact List.pairwise_insertionSort _ es
  have hperm : (newestFirst cs).Perm (newestFirst ds) :=
    ((newestFirst_perm cs).trans h).trans (newestFirst_perm ds).symm
  refine hperm.eq_of_pairwise ?_ (hsorted cs) (hsorted ds)
  intro a b ha hb hab hba
  have hmem : ∀ {x}, x ∈ newestFirst ds → x ∈ ds := fun hx => (newestFirst_perm ds).mem_iff.mp hx
  exact List.inj_on_of_nodup_map hd (hmem (hperm.mem_iff.mp ha)) (hmem hb) (le_antisymm hba hab)

/-- Rows that are in the order of their time are selected in it. -/
theorem insertionSort_eq {rows sorted : List MessageRow} (h : rows.Perm sorted)
    (hs : sorted.Pairwise fun a b => a.createdAt < b.createdAt) :
    rows.insertionSort (fun a b => a.createdAt ≤ b.createdAt) = sorted := by
  have hperm := (List.perm_insertionSort (fun a b : MessageRow => a.createdAt ≤ b.createdAt) rows).trans h
  have : Std.Total fun a b : MessageRow => a.createdAt ≤ b.createdAt := ⟨fun a b => le_total _ _⟩
  have : IsTrans MessageRow fun a b => a.createdAt ≤ b.createdAt := ⟨fun a b c hab hbc => hab.trans hbc⟩
  refine hperm.eq_of_pairwise ?_ (List.pairwise_insertionSort _ rows) (hs.imp fun hab => hab.le)
  intro a b ha hb hab hba
  have heq : a.createdAt = b.createdAt := le_antisymm hab hba
  have hnodup : (sorted.map (·.createdAt)).Nodup :=
    List.pairwise_map.mpr (hs.imp fun hlt => hlt.ne)
  exact List.inj_on_of_nodup_map hnodup (hperm.mem_iff.mp ha) hb heq

end Uns.FactoryAgent
