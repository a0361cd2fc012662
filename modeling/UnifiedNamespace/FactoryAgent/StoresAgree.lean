/-
# `FactoryAgent.StoresAgree` — where the two stores return the same

`Related` says what the tables hold when the dictionary holds a given content.  Under it
the outcomes of a call are equal exactly when the call is `Suitable` (`call_agrees`), and a
suitable call keeps it (`Related.call`).  The memory store hands out the last messages of
a conversation, the database the first ones, so a call for them is suitable when there are
no more than it asks for; and only the database asks whether the conversation is expired.
-/
import UnifiedNamespace.FactoryAgent.Conversations

namespace Uns.FactoryAgent

open Py Lib

/-! ## What the stores have in common -/

structure Related (m : MemoryStore) (p : PostgresStore) : Prop where
  keyed : ∀ e ∈ m.entries, e.2.conversation.id = e.1
  rows : p.conversations = m.entries.map (·.2.conversation)
  messages : ∀ id, p.messages.filter (fun row => row.conversationId = id) =
    (((m.get? id).map (·.messages)).getD []).map messageToRow
  ages : (m.entries.map (·.2.conversation.updatedAt)).Nodup
  ordered : ∀ e ∈ m.entries, e.2.messages.Pairwise fun a b => a.createdAt < b.createdAt

/-- Everything stored is older. -/
def Before (m : MemoryStore) (now : Int) : Prop :=
  ∀ e ∈ m.entries, e.2.conversation.updatedAt < now ∧ ∀ message ∈ e.2.messages, message.createdAt < now

/-- An id that is not in use. -/
def Unused (m : MemoryStore) (p : PostgresStore) (id : Str) : Prop :=
  m.get? id = none ∧ ∀ row ∈ p.messages, row.id ≠ id

/-- The time a call brings. -/
def Op.now : Op → Option Int
  | .listFor _ now => some now
  | .get _ _ now => some now
  | .create _ _ now => some now
  | .delete _ _ => none
  | .append _ _ _ _ _ _ now => some now
  | .lastMessages _ _ _ _ => none
  | .purgeExpired now => some now

/-- The id a call generates. -/
def Op.newId : Op → Option Str
  | .create id _ _ => some id
  | .append messageId _ _ _ _ _ _ => some messageId
  | _ => none

/-- A call that both stores answer alike. -/
def Suitable (m : MemoryStore) : Op → Prop
  | .listFor subject _ => storable subject = true
  | .get id subject _ => storable id = true ∧ storable subject = true
  | .create id subject _ => storable id = true ∧ storable subject = true
  | .delete id subject => storable id = true ∧ storable subject = true
  | .append messageId id subject _ body citations now =>
      (storable id = true ∧ storable subject = true) ∧
        ((m.get id subject now).isSome = true →
          storable messageId = true ∧ storable body = true ∧ citations.all Citation.storable = true)
  | .lastMessages id subject limit clock =>
      (storable id = true ∧ storable subject = true) ∧
        ∀ record, m.owned id subject = some record →
          if expired record.conversation clock then
            record.messages.length = 0 ∨ (record.messages.length : Int) ≤ -limit
          else limitAccepted limit = true ∧ (record.messages.length : Int) ≤ limit
  | .purgeExpired _ => True

/-! ## Reading -/

theorem entries_filter_key {β : Type} (d : Dict Str β) (id : Str) :
    d.entries.filter (fun e => e.1 = id) = (d.get? id).toList.map fun v => (id, v) := by
  obtain ⟨es, hn⟩ := d
  change es.filter _ = (lookup id es).toList.map _
  induction es with
  | nil => rfl
  | cons e es ih =>
      obtain ⟨j, v⟩ := e
      obtain ⟨hj, hn⟩ := List.nodup_cons.mp hn
      by_cases h : j = id
      · subst h
        have hrest : es.filter (fun e => e.1 = j) = [] := by
          refine List.filter_eq_nil_iff.mpr fun e he heq => hj ?_
          exact List.mem_map.mpr ⟨e, he, of_decide_eq_true heq⟩
        simp only [List.filter_cons, decide_true, if_true, hrest, lookup]
        rfl
      · simp only [List.filter_cons, decide_eq_true_eq, if_neg h, ih hn, lookup]

section

variable {m : MemoryStore} {p : PostgresStore} {scan : Scan}

theorem Related.rows_filter (h : Related m p) (id : Str) (q : Conversation → Bool) :
    p.conversations.filter (fun c => decide (c.id = id) && q c) =
      (((m.get? id).map (·.conversation)).filter q).toList := by
  have hkeyed : ∀ e ∈ m.entries, (decide (e.2.conversation.id = id) && q e.2.conversation) =
      (decide (e.1 = id) && q e.2.conversation) := by
    intro e he
    rw [h.keyed e he]
  have hsplit : m.entries.filter (fun e => decide (e.1 = id) && q e.2.conversation) =
      (m.entries.filter fun e => e.1 = id).filter fun e => q e.2.conversation := by
    rw [List.filter_filter]
    exact List.filter_congr fun e _ => Bool.and_comm _ _
  rw [h.rows, List.filter_map]
  rw [show m.entries.filter ((fun c => decide (c.id = id) && q c) ∘ fun e => e.2.conversation) =
    m.entries.filter (fun e => decide (e.1 = id) && q e.2.conversation) from List.filter_congr hkeyed]
  rw [hsplit, entries_filter_key]
  cases m.get? id with
  | none => rfl
  | some record =>
      by_cases hq : q record.conversation = true
      · simp [hq, Option.filter_some]
      · simp [hq, Option.filter_some]

/-- The row a conversation is read by is its record. -/
theorem Related.get_eq (h : Related m p) (id subject : Str) (now : Int) :
    p.get scan id subject now = m.get id subject now := by
  have hrows := h.rows_filter id fun c => decide (c.subject = subject) && decide (now - retention ≤ c.updatedAt)
  have hread : (scan.order p.conversations).filter (fun c =>
      decide (c.id = id) && decide (c.subject = subject) && decide (now - retention ≤ c.updatedAt)) =
      (m.get id subject now).toList := by
    have hperm := (scan.perm p.conversations).filter fun c =>
      decide (c.id = id) && decide (c.subject = subject) && decide (now - retention ≤ c.updatedAt)
    have hrows' : p.conversations.filter (fun c =>
        decide (c.id = id) && decide (c.subject = subject) && decide (now - retention ≤ c.updatedAt)) =
        (m.get id subject now).toList := by
      simp only [Bool.and_assoc]
      rw [hrows, MemoryStore.get, MemoryStore.owned]
      simp only [not_expired]
      cases m.get? id with
      | none => rfl
      | some record =>
          by_cases hs : record.conversation.subject = subject
          · simp [hs, Option.filter_some]
          · simp [hs, Option.filter_some]
    rw [hrows'] at hperm
    cases hget : m.get id subject now with
    | none =>
        rw [hget] at hperm
        exact List.perm_nil.mp hperm
    | some c =>
        rw [hget] at hperm
        exact List.perm_singleton.mp hperm
  rw [PostgresStore.get, hread]
  cases m.get id subject now with
  | none => rfl
  | some c => rfl

theorem Related.listFor_eq (h : Related m p) (subject : Str) (now : Int) :
    p.listFor scan subject now = m.listFor subject now := by
  rw [PostgresStore.listFor, MemoryStore.listFor]
  simp only [not_expired]
  refine newestFirst_eq (h.rows ▸ (scan.perm p.conversations).filter _) ?_
  have hages : ((m.entries.map (·.2.conversation)).map (·.updatedAt)).Nodup := by
    rw [List.map_map]
    exact h.ages
  exact hages.sublist (List.filter_sublist.map _)

theorem owned_eq_some {id subject : Str} {record : ConversationRecord} :
    m.owned id subject = some record ↔
      m.get? id = some record ∧ record.conversation.subject = subject := by
  rw [MemoryStore.owned, Option.filter_eq_some_iff, decide_eq_true_iff]

theorem get_eq_some {id subject : Str} {now : Int} {c : Conversation} :
    m.get id subject now = some c ↔
      ∃ record, m.owned id subject = some record ∧ record.conversation = c ∧ expired c now = false := by
  rw [MemoryStore.get, Option.filter_eq_some_iff, Option.map_eq_some_iff, Bool.not_eq_true']
  constructor
  · rintro ⟨⟨record, hrecord, rfl⟩, hc⟩
    exact ⟨record, hrecord, rfl, hc⟩
  · rintro ⟨record, hrecord, rfl, hc⟩
    exact ⟨⟨record, hrecord, rfl⟩, hc⟩

theorem Related.selectMessages_eq (h : Related m p) {id : Str} {record : ConversationRecord}
    (hrecord : m.get? id = some record) (limit : Nat) :
    p.selectMessages scan id limit = record.messages.take limit := by
  have hrows := h.messages id
  rw [hrecord, Option.map_some, Option.getD_some] at hrows
  have hsorted : (record.messages.map messageToRow).Pairwise fun a b => a.createdAt < b.createdAt :=
    List.pairwise_map.mpr (h.ordered _ (Dict.mem_of_get? hrecord))
  have hperm := (scan.perm p.messages).filter fun row => decide (row.conversationId = id)
  rw [hrows] at hperm
  rw [PostgresStore.selectMessages, insertionSort_eq hperm hsorted, ← List.map_take, List.map_map]
  have hback : rowToMessage ∘ messageToRow = fun message => message :=
    funext rowToMessage_messageToRow
  rw [hback, List.map_id']

end

/-! ## The last messages and the first ones -/

theorem lastOf_eq_nil {messages : List Message} {limit : Int} :
    MemoryStore.lastOf messages limit = [] ↔
      messages.length = 0 ∨ (messages.length : Int) ≤ -limit := by
  rw [MemoryStore.lastOf]
  split
  · rw [List.drop_eq_nil_iff]
    omega
  · rw [List.drop_eq_nil_iff]
    omega

/-- The last messages are the first ones when there are no more than asked for. -/
theorem lastOf_eq_take {messages : List Message} (h : messages.Pairwise fun a b => a.createdAt < b.createdAt)
    {limit : Int} (hlimit : 0 ≤ limit) :
    MemoryStore.lastOf messages limit = messages.take limit.toNat ↔ (messages.length : Int) ≤ limit := by
  constructor
  · intro heq
    by_contra hlong
    cases messages with
    | nil => exact hlong hlimit
    | cons first rest =>
        rw [MemoryStore.lastOf] at heq
        split at heq
        · next hpos =>
          -- the first message is not among the last ones
          have hlen : (first :: rest).length - limit.toNat = (rest.length - limit.toNat) + 1 := by
            rw [List.length_cons] at hlong ⊢
            omega
          obtain ⟨k, hk⟩ : ∃ k, limit.toNat = k + 1 := ⟨limit.toNat - 1, by omega⟩
          rw [hlen, List.drop_succ_cons, hk, List.take_succ_cons] at heq
          have hmem : first ∈ rest := List.mem_of_mem_drop (heq ▸ List.mem_cons_self)
          exact lt_irrefl _ ((List.pairwise_cons.mp h).1 first hmem)
        · next hneg =>
          have hzero : limit = 0 := by omega
          subst hzero
          exact absurd heq (List.cons_ne_nil first rest)
  · intro hshort
    rw [List.take_of_length_le (by omega), MemoryStore.lastOf]
    split
    · rw [Nat.sub_eq_zero_of_le (by omega), List.drop_zero]
    · have hzero : (-limit).toNat = 0 := by omega
      rw [hzero, List.drop_zero]

/-! ## One call -/

section

variable {m : MemoryStore} {p : PostgresStore} {scan : Scan}

theorem Related.any_owned (h : Related m p) (id subject : Str) :
    (p.conversations.any fun c => decide (c.id = id) && decide (c.subject = subject)) =
      (m.owned id subject).isSome := by
  have hrows := h.rows_filter id fun c => decide (c.subject = subject)
  have hany : (∃ c ∈ p.conversations, (decide (c.id = id) && decide (c.subject = subject)) = true) ↔
      ∃ c, c ∈ p.conversations.filter fun c => decide (c.id = id) && decide (c.subject = subject) := by
    simp only [List.mem_filter]
  rw [Bool.eq_iff_iff, List.any_eq_true, hany, hrows, MemoryStore.owned]
  cases m.get? id with
  | none => simp
  | some record =>
      by_cases hs : record.conversation.subject = subject
      · simp [hs, Option.filter_some]
      · simp [hs, Option.filter_some]

theorem Related.any_id (h : Related m p) {id : Str} (hid : m.get? id = none) :
    (p.conversations.any fun c => c.id = id) = false := by
  have hrows := h.rows_filter id fun _ => true
  rw [hid] at hrows
  simp only [Bool.and_true, Option.map_none, Option.filter_none, Option.toList_none] at hrows
  rw [List.any_eq_false]
  exact List.filter_eq_nil_iff.mp hrows

theorem Unused.any_row {messageId : Str} (h : Unused m p messageId) :
    (p.messages.any fun row => row.id = messageId) = false :=
  List.any_eq_false.mpr fun row hrow heq => h.2 row hrow (of_decide_eq_true heq)

/-- Under `Related` the outcomes are equal exactly for a suitable call. -/
theorem call_agrees (h : Related m p) {op : Op} (hnew : ∀ id ∈ op.newId, Unused m p id) :
    (m.call op).1 = (p.call scan op).1 ↔ Suitable m op := by
  cases op with
  | listFor subject now =>
      rw [MemoryStore.call, PostgresStore.call, Suitable]
      cases storable subject with
      | false => exact ⟨fun heq => (by cases heq), fun heq => (by cases heq)⟩
      | true => exact ⟨fun _ => rfl, fun _ => congrArg Outcome.conversations (h.listFor_eq subject now).symm⟩
  | get id subject now =>
      rw [MemoryStore.call, PostgresStore.call, Suitable, ← Bool.and_eq_true]
      cases storable id && storable subject with
      | false => exact ⟨fun heq => (by cases heq), fun heq => (by cases heq)⟩
      | true => exact ⟨fun _ => rfl, fun _ => congrArg Outcome.conversation (h.get_eq id subject now).symm⟩
  | create id subject now =>
      have hfree := h.any_id (hnew id rfl).1
      rw [MemoryStore.call, PostgresStore.call, Suitable, ← Bool.and_eq_true, hfree, Bool.not_false,
        Bool.and_true]
      cases storable id && storable subject with
      | false => exact ⟨fun heq => (by cases heq), fun heq => (by cases heq)⟩
      | true => exact ⟨fun _ => rfl, fun _ => rfl⟩
  | delete id subject =>
      rw [PostgresStore.call, Suitable, ← Bool.and_eq_true, h.any_owned, MemoryStore.call]
      cases storable id && storable subject with
      | false =>
          refine ⟨fun heq => ?_, fun heq => (by cases heq)⟩
          cases howned : m.owned id subject with
          | none =>
              rw [howned] at heq
              cases heq
          | some record =>
              rw [howned] at heq
              cases heq
      | true =>
          refine ⟨fun _ => rfl, fun _ => ?_⟩
          cases m.owned id subject with
          | none => rfl
          | some record => rfl
  | append messageId id subject role body citations now =>
      have hfree := (hnew messageId rfl).any_row
      rw [PostgresStore.call, Suitable, ← Bool.and_eq_true, h.get_eq, MemoryStore.call, hfree,
        Bool.not_false, Bool.and_true, ← Bool.and_eq_true, ← Bool.and_eq_true, ← Bool.and_assoc]
      cases storable id && storable subject with
      | false =>
          refine ⟨fun heq => ?_, fun heq => (by cases heq.1)⟩
          cases hget : m.get id subject now with
          | none =>
              rw [hget] at heq
              cases heq
          | some c =>
              rw [hget] at heq
              cases heq
      | true =>
          cases m.get id subject now with
          | none => exact ⟨fun _ => ⟨rfl, fun heq => (by cases heq)⟩, fun _ => rfl⟩
          | some c =>
              cases storable messageId && storable body && citations.all Citation.storable with
              | false => exact ⟨fun heq => (by cases heq), fun heq => (by cases heq.2 rfl)⟩
              | true => exact ⟨fun _ => ⟨rfl, fun _ => rfl⟩, fun _ => rfl⟩
  | lastMessages id subject limit clock =>
      rw [PostgresStore.call, Suitable, ← Bool.and_eq_true, h.get_eq, MemoryStore.call]
      cases storable id && storable subject with
      | false => exact ⟨fun heq => (by cases heq), fun heq => (by cases heq.1)⟩
      | true =>
          cases howned : m.owned id subject with
          | none =>
              rw [MemoryStore.get, howned]
              exact ⟨fun _ => ⟨rfl, fun _ heq => (by cases heq)⟩, fun _ => rfl⟩
          | some record =>
              have hone : ∀ P : ConversationRecord → Prop,
                  (∀ r, some record = some r → P r) ↔ P record :=
                fun P => ⟨fun hall => hall record rfl, fun hP r hr => Option.some.inj hr ▸ hP⟩
              rw [hone, MemoryStore.get, howned]
              simp only [Option.map_some, Option.getD_some, Option.filter_some, if_true, true_and]
              cases hexpired : expired record.conversation clock with
              | true =>
                  simp only [Bool.not_true, Bool.false_eq_true, if_false, if_true]
                  rw [← lastOf_eq_nil]
                  exact ⟨fun heq => Outcome.messages.inj heq, fun heq => congrArg Outcome.messages heq⟩
              | false =>
                  simp only [Bool.not_false, Bool.false_eq_true, if_false, if_true]
                  cases hlimit : limitAccepted limit with
                  | false => exact ⟨fun heq => (by cases heq), fun heq => (by cases heq.1)⟩
                  | true =>
                      have hrecord := (owned_eq_some.mp howned).1
                      have hlower : 0 ≤ limit := (of_decide_eq_true hlimit).1
                      have hselect : p.selectMessages scan id limit.toNat = _ := h.selectMessages_eq hrecord limit.toNat
                      rw [← lastOf_eq_take (h.ordered _ (Dict.mem_of_get? hrecord)) hlower, ← hselect]
                      exact ⟨fun heq => ⟨rfl, Outcome.messages.inj heq⟩,
                        fun heq => congrArg Outcome.messages heq.2⟩
  | purgeExpired now =>
      refine ⟨fun _ => trivial, fun _ => ?_⟩
      rw [MemoryStore.call, PostgresStore.call, h.rows, List.filter_map, List.length_map]
      simp only [expired_iff, Function.comp_def]

end

/-! ## What a call leaves -/

section

variable {m : MemoryStore} {p : PostgresStore} {scan : Scan}

theorem MemoryStore.ext_entries {m m' : MemoryStore} (h : m.entries = m'.entries) : m = m' := by
  obtain ⟨es, hes⟩ := m
  obtain ⟨es', hes'⟩ := m'
  cases h
  rfl

theorem mem_entries_filter {m : MemoryStore} {q : Str → ConversationRecord → Bool}
    {e : Str × ConversationRecord} : e ∈ (m.filter q).entries ↔ e ∈ m.entries ∧ q e.1 e.2 = true :=
  List.mem_filter

theorem Related.deleteWhere (h : Related m p) (gone : Conversation → Bool) :
    Related (m.filter fun _ record => !gone record.conversation) (p.deleteWhere gone) where
  keyed e he := h.keyed e (mem_entries_filter.mp he).1
  rows := by
    change p.conversations.filter (fun c => !gone c) = _
    rw [h.rows, List.filter_map]
    rfl
  messages := by
    intro id
    have hany : (p.conversations.any fun c => gone c && decide (c.id = id)) =
        (((m.get? id).map (·.conversation)).filter gone).isSome := by
      have hrows := h.rows_filter id gone
      have hmem : (∃ c ∈ p.conversations, (gone c && decide (c.id = id)) = true) ↔
          ∃ c, c ∈ p.conversations.filter fun c => decide (c.id = id) && gone c := by
        simp only [List.mem_filter, Bool.and_comm]
      rw [Bool.eq_iff_iff, List.any_eq_true, hmem, hrows, Option.isSome_iff_exists]
      simp only [Option.mem_toList]
    have hsplit : (p.deleteWhere gone).messages.filter (fun row => row.conversationId = id) =
        (p.messages.filter fun row => row.conversationId = id).filter fun _ =>
          !p.conversations.any fun c => gone c && decide (c.id = id) := by
      rw [PostgresStore.deleteWhere, List.filter_filter, List.filter_filter]
      refine List.filter_congr fun row _ => ?_
      by_cases hrow : row.conversationId = id
      · rw [hrow, Bool.and_comm]
      · rw [decide_eq_false hrow, Bool.false_and, Bool.and_false]
    rw [hsplit, h.messages, hany, Dict.get?_filter]
    cases m.get? id with
    | none => rfl
    | some record =>
        cases hgone : gone record.conversation with
        | true => simp [hgone, Option.filter_some]
        | false => simp [hgone, Option.filter_some]
  ages := h.ages.sublist (List.filter_sublist.map _)
  ordered e he := h.ordered e (mem_entries_filter.mp he).1

/-- The conversation of the subject is the one row with its id. -/
theorem Related.delete_entries (h : Related m p) (id subject : Str) :
    ((m.call (.delete id subject)).2) = m.filter fun _ record =>
      !(decide (record.conversation.id = id) && decide (record.conversation.subject = subject)) := by
  have hget : ∀ e ∈ m.entries, e.1 = id → m.get? id = some e.2 := fun e he heq =>
    heq ▸ Dict.get?_of_mem he
  rw [MemoryStore.call]
  cases howned : m.owned id subject with
  | none =>
      refine MemoryStore.ext_entries (List.filter_eq_self.mpr fun e he => ?_).symm
      rw [Bool.not_eq_true', Bool.and_eq_false_iff, decide_eq_false_iff_not, decide_eq_false_iff_not,
        ← not_and_or, h.keyed e he]
      rintro ⟨hid, hsubject⟩
      have hsome := owned_eq_some.mpr ⟨hget e he hid, hsubject⟩
      rw [howned] at hsome
      cases hsome
  | some record =>
      obtain ⟨hrecord, hsubject⟩ := owned_eq_some.mp howned
      refine MemoryStore.ext_entries (List.filter_congr fun e he => ?_)
      simp only [h.keyed e he]
      by_cases hid : e.1 = id
      · have heq := Option.some.inj ((hget e he hid).symm.trans hrecord)
        rw [heq, decide_eq_true hid, decide_eq_true hsubject, decide_eq_false (not_not.mpr hid)]
        rfl
      · rw [decide_eq_true hid, decide_eq_false hid]
        rfl

theorem Related.created (h : Related m p) {id subject : Str} {now : Int} (hnew : m.get? id = none)
    (hbefore : Before m now) : Related
      (m.update id ⟨⟨id, subject, newChat, now, now⟩, []⟩ fun _ => ⟨⟨id, subject, newChat, now, now⟩, []⟩)
      { p with conversations := p.conversations ++ [⟨id, subject, newChat, now, now⟩] } := by
  have hentries := Dict.entries_update_of_none ⟨⟨id, subject, newChat, now, now⟩, []⟩
    (fun _ => ⟨⟨id, subject, newChat, now, now⟩, []⟩) hnew
  refine ⟨?_, ?_, ?_, ?_, ?_⟩
  · intro e he
    rw [hentries, List.mem_append, List.mem_singleton] at he
    rcases he with he | rfl
    · exact h.keyed e he
    · rfl
  · rw [hentries, List.map_append, h.rows]
    rfl
  · intro id'
    by_cases hid : id' = id
    · subst hid
      have hnone := h.messages id'
      rw [hnew] at hnone
      rw [Dict.get?_update_self]
      exact hnone
    · rw [Dict.get?_update_ne _ _ _ hid]
      exact h.messages id'
  · rw [hentries, List.map_append]
    refine List.nodup_append'.mpr ⟨h.ages, List.nodup_singleton _, ?_⟩
    intro age hage hnow
    obtain ⟨e, he, rfl⟩ := List.mem_map.mp hage
    exact absurd (List.mem_singleton.mp hnow) (hbefore e he).1.ne
  · intro e he
    rw [hentries, List.mem_append, List.mem_singleton] at he
    rcases he with he | rfl
    · exact h.ordered e he
    · exact .nil

theorem mem_entries_mapValues {f : Str → ConversationRecord → ConversationRecord}
    {e : Str × ConversationRecord} :
    e ∈ (m.mapValues f).entries ↔ ∃ e' ∈ m.entries, e = (e'.1, f e'.1 e'.2) := by
  simp only [Dict.mapValues, List.mem_map, eq_comm]

theorem Related.wrote (h : Related m p) {message : Message} {subject : Str} {record : ConversationRecord}
    (hrecord : m.owned message.conversationId subject = some record)
    (hbefore : Before m message.createdAt) : Related
      (m.mapValues fun key r => if key = message.conversationId then MemoryStore.appended message r else r)
      (p.write message subject (titled record.conversation.title message.role message.body)) := by
  obtain ⟨hget, hsubject⟩ := owned_eq_some.mp hrecord
  have hentry : ∀ e ∈ m.entries, e.1 = message.conversationId → e.2 = record := by
    intro e he heq
    have he := Dict.get?_of_mem he
    rw [heq, hget] at he
    exact (Option.some.inj he).symm
  refine ⟨?_, ?_, ?_, ?_, ?_⟩
  · intro e he
    obtain ⟨e', he', rfl⟩ := mem_entries_mapValues.mp he
    have hkey := h.keyed e' he'
    by_cases hid : e'.1 = message.conversationId
    · simp only [if_pos hid]
      exact hkey
    · simp only [if_neg hid]
      exact hkey
  · change p.conversations.map _ = _
    rw [h.rows, Dict.mapValues, List.map_map, List.map_map]
    refine List.map_congr_left fun e he => ?_
    have hkey := h.keyed e he
    simp only [Function.comp_def]
    by_cases hid : e.1 = message.conversationId
    · have heq := hentry e he hid
      rw [heq] at hkey ⊢
      rw [if_pos hid, if_pos ⟨hkey.trans hid, hsubject⟩]
      rfl
    · rw [if_neg hid, if_neg fun hboth => hid (hkey.symm.trans hboth.1)]
  · intro id
    have hrows := h.messages id
    rw [PostgresStore.write, List.filter_append, hrows, Dict.get?_mapValues]
    by_cases hid : id = message.conversationId
    · subst hid
      rw [hget]
      simp only [Option.map_some, Option.getD_some, if_true, MemoryStore.appended, List.map_append]
      refine congrArg (_ ++ ·) (List.filter_eq_self.mpr fun row hrow => ?_)
      rw [List.mem_singleton.mp hrow]
      exact decide_eq_true rfl
    · have hother : [messageToRow message].filter (fun row => row.conversationId = id) = [] := by
        refine List.filter_eq_nil_iff.mpr fun row hrow heq => ?_
        rw [List.mem_singleton.mp hrow] at heq
        exact hid (of_decide_eq_true heq).symm
      rw [hother, List.append_nil]
      simp only [if_neg hid, Option.map_map, Function.comp_def]
  · rw [Dict.mapValues, List.map_map]
    have hnodup : m.entries.Nodup := List.Nodup.of_map _ m.nodup
    refine hnodup.map_on fun e he e' he' heq => ?_
    have hkeys : e.1 = e'.1 → e = e' := List.inj_on_of_nodup_map m.nodup he he'
    simp only [Function.comp_def] at heq
    by_cases hid : e.1 = message.conversationId
    · by_cases hid' : e'.1 = message.conversationId
      · exact hkeys (hid.trans hid'.symm)
      · rw [if_pos hid, if_neg hid'] at heq
        exact absurd heq.symm (hbefore e' he').1.ne
    · by_cases hid' : e'.1 = message.conversationId
      · rw [if_neg hid, if_pos hid'] at heq
        exact absurd heq (hbefore e he).1.ne
      · rw [if_neg hid, if_neg hid'] at heq
        exact List.inj_on_of_nodup_map h.ages he he' heq
  · intro e he
    obtain ⟨e', he', rfl⟩ := mem_entries_mapValues.mp he
    have hsorted := h.ordered e' he'
    by_cases hid : e'.1 = message.conversationId
    · simp only [if_pos hid]
      refine List.pairwise_append.mpr ⟨hsorted, List.pairwise_singleton _ _, fun a ha b hb => ?_⟩
      rw [List.mem_singleton.mp hb]
      exact (hbefore e' he').2 a ha
    · simp only [if_neg hid]
      exact hsorted

/-- A suitable call keeps the stores related. -/
theorem Related.call (h : Related m p) {op : Op} (hnew : ∀ id ∈ op.newId, Unused m p id)
    (hbefore : ∀ now ∈ op.now, Before m now) (hs : Suitable m op) :
    Related (m.call op).2 (p.call scan op).2 := by
  cases op with
  | listFor subject now =>
      replace hs : storable subject = true := hs
      rw [PostgresStore.call, if_pos hs]
      exact h
  | get id subject now =>
      rw [PostgresStore.call, if_pos (Bool.and_eq_true_iff.mpr hs)]
      exact h
  | create id subject now =>
      have hfree := h.any_id (hnew id rfl).1
      rw [PostgresStore.call, hfree, Bool.not_false, Bool.and_true, if_pos (Bool.and_eq_true_iff.mpr hs)]
      exact h.created (hnew id rfl).1 (hbefore now rfl)
  | delete id subject =>
      rw [h.delete_entries, PostgresStore.call, if_pos (Bool.and_eq_true_iff.mpr hs)]
      exact h.deleteWhere fun c => decide (c.id = id) && decide (c.subject = subject)
  | append messageId id subject role body citations now =>
      have hfree := (hnew messageId rfl).any_row
      obtain ⟨hids, htexts⟩ := hs
      rw [PostgresStore.call, if_pos (Bool.and_eq_true_iff.mpr hids), h.get_eq, MemoryStore.call]
      cases hget : m.get id subject now with
      | none => exact h
      | some c =>
          obtain ⟨record, hrecord, rfl, _⟩ := get_eq_some.mp hget
          obtain ⟨hid, hbody, hcitations⟩ := htexts (by rw [hget]; rfl)
          simp only [hid, hbody, hcitations, hfree, Bool.not_false, Bool.and_true, if_true]
          exact @Related.wrote m p h ⟨messageId, id, role, body, citations, now⟩ subject record hrecord
            (hbefore now rfl)
  | lastMessages id subject limit clock =>
      rw [PostgresStore.call, if_pos (Bool.and_eq_true_iff.mpr hs.1)]
      cases p.get scan id subject clock with
      | none => exact h
      | some c =>
          cases limitAccepted limit with
          | false => exact h
          | true => exact h
  | purgeExpired now =>
      have hgone := h.deleteWhere fun c => decide (c.updatedAt < now - retention)
      have hsame : (m.call (.purgeExpired now)).2 =
          m.filter fun _ record => !decide (record.conversation.updatedAt < now - retention) := by
        rw [MemoryStore.call]
        simp only [expired_iff]
      rw [hsame]
      exact hgone

theorem Before.filter {t : Int} (h : Before m t) (q : Str → ConversationRecord → Bool) :
    Before (m.filter q) t := fun e he => h e (mem_entries_filter.mp he).1

theorem Before.call {t : Int} (h : Before m t) {op : Op} (hlt : ∀ now ∈ op.now, now < t) :
    Before (m.call op).2 t := by
  cases op with
  | listFor subject now => exact h
  | get id subject now => exact h
  | create id subject now =>
      intro e he
      rcases Dict.mem_entries_update he with he | rfl
      · exact h e he
      · exact ⟨hlt now rfl, fun _ hmessage => (nomatch hmessage)⟩
  | delete id subject =>
      rw [MemoryStore.call]
      cases m.owned id subject with
      | none => exact h
      | some record => exact h.filter _
  | append messageId id subject role body citations now =>
      rw [MemoryStore.call]
      cases m.get id subject now with
      | none => exact h
      | some c =>
          intro e he
          obtain ⟨e', he', rfl⟩ := mem_entries_mapValues.mp he
          obtain ⟨hage, hmessages⟩ := h e' he'
          by_cases hid : e'.1 = id
          · simp only [if_pos hid]
            refine ⟨hlt now rfl, fun message hmessage => ?_⟩
            rcases List.mem_append.mp hmessage with hmessage | hmessage
            · exact hmessages message hmessage
            · rw [List.mem_singleton.mp hmessage]
              exact hlt now rfl
          · simp only [if_neg hid]
            exact ⟨hage, hmessages⟩
  | lastMessages id subject limit clock => exact h
  | purgeExpired now => exact h.filter _

theorem Unused.deleteWhere {id : Str} (h : Unused m p id) (q : Str → ConversationRecord → Bool)
    (gone : Conversation → Bool) : Unused (m.filter q) (p.deleteWhere gone) id := by
  refine ⟨?_, fun row hrow => h.2 row (List.mem_filter.mp hrow).1⟩
  rw [Dict.get?_filter, h.1]
  rfl

/-- An id stays free until it is generated. -/
theorem Unused.call {id : Str} (hR : Related m p) {op : Op} (hs : Suitable m op) (h : Unused m p id)
    (hid : id ∉ op.newId) : Unused (m.call op).2 (p.call scan op).2 id := by
  cases op with
  | listFor subject now =>
      replace hs : storable subject = true := hs
      rw [PostgresStore.call, if_pos hs]
      exact h
  | get id' subject now =>
      rw [PostgresStore.call, if_pos (Bool.and_eq_true_iff.mpr hs)]
      exact h
  | create id' subject now =>
      have hne : id ≠ id' := fun heq => hid (heq ▸ rfl)
      refine ⟨(Dict.get?_update_ne _ _ _ hne).trans h.1, ?_⟩
      rw [PostgresStore.call]
      split
      · exact h.2
      · exact h.2
  | delete id' subject =>
      rw [hR.delete_entries, PostgresStore.call, if_pos (Bool.and_eq_true_iff.mpr hs)]
      exact h.deleteWhere _ _
  | append messageId id' subject role body citations now =>
      have hne : messageId ≠ id := fun heq => hid (heq ▸ rfl)
      rw [PostgresStore.call, if_pos (Bool.and_eq_true_iff.mpr hs.1), hR.get_eq, MemoryStore.call]
      cases m.get id' subject now with
      | none => exact h
      | some c =>
          refine ⟨?_, ?_⟩
          · change (m.mapValues _).get? id = none
            rw [Dict.get?_mapValues, h.1]
            rfl
          · dsimp only
            split
            · intro row hrow
              rcases List.mem_append.mp hrow with hrow | hrow
              · exact h.2 row hrow
              · rw [List.mem_singleton.mp hrow]
                exact hne
            · exact h.2
  | lastMessages id' subject limit clock =>
      rw [PostgresStore.call, if_pos (Bool.and_eq_true_iff.mpr hs.1)]
      cases p.get scan id' subject clock with
      | none => exact h
      | some c =>
          cases limitAccepted limit with
          | false => exact h
          | true => exact h
  | purgeExpired now => exact h.deleteWhere _ _

end

/-! ## Histories -/

/-- A call, and how the database reads its tables for it. -/
structure Step where
  scan : Scan
  op : Op

/-- The times only go up, and the generated ids are fresh. -/
structure Lawful (steps : List Step) : Prop where
  clock : (steps.filterMap (·.op.now)).Pairwise (· < ·)
  fresh : (steps.filterMap (·.op.newId)).Nodup

/-- The last messages of a live conversation are its most recent ones. -/
def Recent (m : MemoryStore) (op : Op) (out : Outcome) : Prop :=
  ∀ id subject limit clock, op = .lastMessages id subject limit clock → 1 ≤ limit →
    ∀ record, m.owned id subject = some record → expired record.conversation clock = false →
      out = .messages (record.messages.drop (record.messages.length - limit.toNat))

/-- The two stores return the same, and the last messages are right. -/
def Answered (m : MemoryStore) (p : PostgresStore) (s : Step) : Prop :=
  (m.call s.op).1 = (p.call s.scan s.op).1 ∧ Recent m s.op (m.call s.op).1 ∧
    Recent m s.op (p.call s.scan s.op).1

def AllAnswered (m : MemoryStore) (p : PostgresStore) : List Step → Prop
  | [] => True
  | s :: steps => Answered m p s ∧ AllAnswered (m.call s.op).2 (p.call s.scan s.op).2 steps

/-- Each call is suitable for what the calls before it have stored. -/
def AllSuitable (m : MemoryStore) : List Step → Prop
  | [] => True
  | s :: steps => Suitable m s.op ∧ AllSuitable (m.call s.op).2 steps

theorem recent_memory (m : MemoryStore) (op : Op) : Recent m op (m.call op).1 := by
  rintro id subject limit clock rfl hlimit record hrecord _
  rw [MemoryStore.call, hrecord]
  have hpos : 0 < limit := by omega
  simp only [Option.map_some, Option.getD_some, MemoryStore.lastOf, if_pos hpos]

theorem answered_iff {m : MemoryStore} {p : PostgresStore} (h : Related m p) {s : Step}
    (hnew : ∀ id ∈ s.op.newId, Unused m p id) : Answered m p s ↔ Suitable m s.op := by
  rw [Answered, ← @call_agrees m p s.scan h s.op hnew]
  refine ⟨fun hanswered => hanswered.1, fun heq => ⟨heq, recent_memory m s.op, ?_⟩⟩
  exact heq ▸ recent_memory m s.op

theorem allAnswered_iff {m : MemoryStore} {p : PostgresStore} {steps : List Step} (h : Related m p)
    (hlawful : Lawful steps) (hbefore : ∀ now ∈ steps.filterMap (·.op.now), Before m now)
    (hunused : ∀ id ∈ steps.filterMap (·.op.newId), Unused m p id) :
    AllAnswered m p steps ↔ AllSuitable m steps := by
  induction steps generalizing m p with
  | nil => exact Iff.rfl
  | cons s steps ih =>
      obtain ⟨hclock, hfresh⟩ := hlawful
      rw [List.filterMap_cons] at hclock hfresh hbefore hunused
      have hnew : ∀ id ∈ s.op.newId, Unused m p id := by
        intro id hid
        rw [Option.mem_def.mp hid] at hunused
        exact hunused id List.mem_cons_self
      rw [AllAnswered, AllSuitable, answered_iff h hnew]
      refine and_congr_right fun hs => ?_
      have hnow : ∀ now ∈ s.op.now, Before m now := by
        intro now hnow
        rw [Option.mem_def.mp hnow] at hbefore
        exact hbefore now List.mem_cons_self
      refine ih (h.call hnew hnow hs) ⟨?_, ?_⟩ ?_ ?_
      · cases hop : s.op.now with
        | none => rwa [hop] at hclock
        | some now =>
            rw [hop] at hclock
            exact (List.pairwise_cons.mp hclock).2
      · cases hop : s.op.newId with
        | none => rwa [hop] at hfresh
        | some id =>
            rw [hop] at hfresh
            exact (List.nodup_cons.mp hfresh).2
      · intro t ht
        refine Before.call ?_ ?_
        · cases hop : s.op.now with
          | none =>
              rw [hop] at hbefore
              exact hbefore t ht
          | some now =>
              rw [hop] at hbefore
              exact hbefore t (List.mem_cons_of_mem _ ht)
        · intro now hnow
          rw [Option.mem_def.mp hnow] at hclock
          exact (List.pairwise_cons.mp hclock).1 t ht
      · intro id hid
        refine Unused.call h hs ?_ ?_
        · cases hop : s.op.newId with
          | none =>
              rw [hop] at hunused
              exact hunused id hid
          | some id' =>
              rw [hop] at hunused
              exact hunused id (List.mem_cons_of_mem _ hid)
        · intro hmem
          rw [Option.mem_def.mp hmem] at hfresh
          exact (List.nodup_cons.mp hfresh).1 hid

def MemoryStore.empty : MemoryStore := Dict.empty

def PostgresStore.empty : PostgresStore := ⟨[], []⟩

theorem related_empty : Related .empty .empty where
  keyed _ he := nomatch he
  rows := rfl
  messages _ := rfl
  ages := List.nodup_nil
  ordered _ he := nomatch he

/-- From empty stores, all calls are answered alike and the last messages are right exactly
when each call is suitable. -/
theorem stores_agree_iff {steps : List Step} (h : Lawful steps) :
    AllAnswered .empty .empty steps ↔ AllSuitable .empty steps :=
  allAnswered_iff related_empty h (fun _ _ _ he => (nomatch he))
    fun _ _ => ⟨rfl, fun _ hrow => (nomatch hrow)⟩

/-- The rows in the order they were inserted. -/
def Scan.sequential : Scan := ⟨fun rows => rows, fun _ => List.Perm.refl _⟩

/-- A conversation with two messages, and its last one. -/
def twoMessages : List Step :=
  [.create (lit "c") (lit "ann") 1,
    .append (lit "m1") (lit "c") (lit "ann") .user (lit "Hi") [] 2,
    .append (lit "m2") (lit "c") (lit "ann") .assistant (lit "Hello") [] 3,
    .lastMessages (lit "c") (lit "ann") 1 4].map fun op => ⟨.sequential, op⟩

theorem twoMessages_lawful : Lawful twoMessages := ⟨by decide, by decide⟩

theorem stores_agree_iff_twoMessages :
    AllAnswered .empty .empty twoMessages ↔ AllSuitable .empty twoMessages :=
  stores_agree_iff twoMessages_lawful

/-- One store returns the newer message, the other the older. -/
theorem last_message_differs : Lawful twoMessages ∧ ¬ AllAnswered .empty .empty twoMessages := by
  refine ⟨twoMessages_lawful, ?_⟩
  rintro ⟨_, _, _, ⟨hlast, _⟩, _⟩
  exact absurd hlast (by decide)

end Uns.FactoryAgent
