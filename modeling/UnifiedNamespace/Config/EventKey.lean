/-
# `Config.EventKey` — the keys that order events

`event_key` of `events.py`.  Kafka keeps the order of what has one key, so a key stands for an
ordering domain: a topic, a Sparkplug edge node or a Sparkplug host, at a site.  Two events have
one key exactly when they have one site and one domain (`eventKey_eq_iff`): the key is the JSON
text of a list, from which its parts are read again, and a group named `STATE` has no edge nodes.
-/
import UnifiedNamespace.Config.Events
import UnifiedNamespace.Lib.Raise
import UnifiedNamespace.Python.JsonRoundTrip

namespace Uns

open Py Lib

/-! ## The key -/

/-- `s.split("/", n)`. -/
def splitTopicAtMost : Nat → Str → List Str
  | 0, s => [s]
  | n + 1, s =>
      if 47 ∈ s then s.takeWhile (· ≠ 47) :: splitTopicAtMost n ((s.dropWhile (· ≠ 47)).drop 1) else [s]

def keyParts (siteId topic : Str) : Except Raised (List Str) :=
  if startsWith topic sparkplugStatePrefix then
    -- a topic with this prefix has a third part
    .ok [siteId, lit "sparkplug", lit "STATE", (splitTopicAtMost 3 topic).getD 2 []]
  else if startsWith topic sparkplugPrefix then
    match splitTopic topic with
    | _ :: group :: _ :: edgeNode :: _ => .ok [siteId, lit "sparkplug", group, edgeNode]
    | _ => .error (envelopeError "invalid_field" "sparkplug topic is too short for partition key")
  else .ok [siteId, lit "mqtt", topic]

/-- `event_key` of an envelope with this site and topic. -/
def eventKey (lim : Limits) (siteId topic : Str) : Except Raised Bytes := do
  let parts ← keyParts siteId topic
  jsonBytes lim (.arr (parts.map .str))

/-! ## Ordering domains -/

/-- What is kept in order: a plain topic, what an edge node and its devices send, or the state of a host. -/
inductive OrderingDomain where
  | topic (topic : Str)
  | edgeNode (group edgeNode : Str)
  | host (host : Str)

/-- The domain of a topic, by its segments; a Sparkplug topic that is too short has none. -/
def orderingDomain (topic : Str) : Option OrderingDomain :=
  match splitTopic topic with
  | version :: second :: rest =>
      if version = lit "spBv1.0" then
        if second = lit "STATE" then rest.head?.map .host
        else rest.tail.head?.map (.edgeNode second)
      else some (.topic topic)
  | _ => some (.topic topic)

def OrderingDomain.parts (siteId : Str) : OrderingDomain → List Str
  | .topic t => [siteId, lit "mqtt", t]
  | .edgeNode g e => [siteId, lit "sparkplug", g, e]
  | .host h => [siteId, lit "sparkplug", lit "STATE", h]

/-! ## The parts of a topic -/

theorem splitTopic_append (a b : Str) : splitTopic (a ++ 47 :: b) = splitTopic a ++ splitTopic b :=
  List.splitOn_append_cons_self _ _

theorem splitTopic_plain {s : Str} (h : 47 ∉ s) : splitTopic s = [s] := List.splitOn_eq_singleton h

/-- A topic up to its first slash, and what is after it. -/
theorem splitTopic_of_mem {s : Str} (h : 47 ∈ s) :
    splitTopic s = s.takeWhile (· ≠ 47) :: splitTopic ((s.dropWhile (· ≠ 47)).drop 1) := by
  induction s with
  | nil => cases h
  | cons c s ih =>
      rcases eq_or_ne c 47 with rfl | hc
      · exact splitTopic_append [] s
      · have hs : 47 ∈ s := (List.mem_cons.mp h).resolve_left hc.symm
        have hsplit := ih hs
        rw [List.takeWhile_cons, List.dropWhile_cons, if_pos (decide_eq_true hc), if_pos (decide_eq_true hc)]
        have hplain : ∀ t : Str, splitTopic (c :: t) = (splitTopic t).modifyHead (c :: ·) := by
          intro t
          rw [splitTopic, splitTopic, List.splitOn_cons_eq_if_modifyHead, if_neg (by simpa using hc)]
        rw [hplain, hsplit, List.modifyHead_cons]

/-- Splitting at most `n` times finds the same first parts. -/
theorem splitTopicAtMost_getElem? {n i : Nat} (hi : i < n) (s : Str) :
    (splitTopicAtMost n s)[i]? = (splitTopic s)[i]? := by
  induction n generalizing i s with
  | zero => exact absurd hi (Nat.not_lt_zero _)
  | succ n ih =>
      rw [splitTopicAtMost]
      split
      · next hmem =>
          rw [splitTopic_of_mem hmem]
          cases i with
          | zero => rfl
          | succ i => exact ih (Nat.lt_of_succ_lt_succ hi) _
      · next hplain => rw [splitTopic_plain hplain]

theorem startsWith_iff {s p : Str} : startsWith s p = true ↔ ∃ rest, s = p ++ rest := by
  rw [startsWith, List.isPrefixOf_iff_prefix]
  exact ⟨fun ⟨rest, h⟩ => ⟨rest, h.symm⟩, fun ⟨rest, h⟩ => ⟨rest, h.symm⟩⟩

/-- A topic whose first segment is given starts with it and a slash, unless it is that segment. -/
theorem starts_of_splitTopic {topic version second : Str} {rest : List Str}
    (h : splitTopic topic = version :: second :: rest) :
    ∃ tail, topic = version ++ 47 :: tail ∧ splitTopic tail = second :: rest := by
  have hmem : 47 ∈ topic := by
    by_contra hplain
    rw [splitTopic_plain hplain] at h
    cases h
  rw [splitTopic_of_mem hmem] at h
  obtain ⟨hversion, htail⟩ := List.cons.inj h
  refine ⟨(topic.dropWhile (· ≠ 47)).drop 1, ?_, htail⟩
  obtain ⟨c, tail, hdrop⟩ : ∃ c tail, topic.dropWhile (· ≠ 47) = c :: tail := by
    refine List.exists_cons_of_ne_nil fun hnil => ?_
    have hall := List.dropWhile_eq_nil_iff.mp hnil 47 hmem
    exact absurd hall (by decide)
  have hc : c = 47 := by
    have hhead := List.head?_dropWhile_not (fun d : Nat => decide (d ≠ 47)) topic
    rw [hdrop] at hhead
    simpa using hhead
  rw [← hversion, hdrop, hc]
  conv_lhs => rw [← List.takeWhile_append_dropWhile (p := (· ≠ 47)) (l := topic), hdrop, hc]
  rfl

theorem splitTopic_state (rest : Str) :
    splitTopic (sparkplugStatePrefix ++ rest) = lit "spBv1.0" :: lit "STATE" :: splitTopic rest := by
  have hshape : sparkplugStatePrefix ++ rest = lit "spBv1.0" ++ 47 :: (lit "STATE" ++ 47 :: rest) := rfl
  rw [hshape, splitTopic_append, splitTopic_append, splitTopic_plain (by decide), splitTopic_plain (by decide)]
  rfl

theorem splitTopic_sparkplug (rest : Str) : splitTopic (sparkplugPrefix ++ rest) = lit "spBv1.0" :: splitTopic rest := by
  have hshape : sparkplugPrefix ++ rest = lit "spBv1.0" ++ 47 :: rest := rfl
  rw [hshape, splitTopic_append, splitTopic_plain (by decide)]
  rfl

theorem splitTopic_ne_nil (s : Str) : splitTopic s ≠ [] := List.splitOn_ne_nil _ _

/-! ## A key stands for a domain -/

/-- The parts of a key are those of the domain of its topic. -/
theorem keyParts_eq (siteId topic : Str) : keyParts siteId topic =
    match orderingDomain topic with
    | some domain => .ok (domain.parts siteId)
    | none => .error (envelopeError "invalid_field" "sparkplug topic is too short for partition key") := by
  rw [keyParts]
  by_cases hstate : startsWith topic sparkplugStatePrefix = true
  · obtain ⟨rest, rfl⟩ := startsWith_iff.mp hstate
    obtain ⟨host, hosts, hrest⟩ := List.exists_cons_of_ne_nil (splitTopic_ne_nil rest)
    have hthird : (splitTopicAtMost 3 (sparkplugStatePrefix ++ rest)).getD 2 [] = host := by
      rw [List.getD_eq_getElem?_getD, splitTopicAtMost_getElem? (by decide), splitTopic_state, hrest]
      rfl
    rw [if_pos hstate, hthird, orderingDomain, splitTopic_state, hrest]
    rfl
  · rw [if_neg hstate]
    by_cases hsparkplug : startsWith topic sparkplugPrefix = true
    · obtain ⟨rest, rfl⟩ := startsWith_iff.mp hsparkplug
      rw [if_pos hsparkplug, orderingDomain, splitTopic_sparkplug]
      obtain ⟨group, more, hrest⟩ := List.exists_cons_of_ne_nil (splitTopic_ne_nil rest)
      rw [hrest]
      dsimp only
      rw [if_pos rfl]
      by_cases hgroup : group = lit "STATE"
      · -- without a third part: with one the topic had the prefix of a state
        subst hgroup
        cases more with
        | nil => rfl
        | cons host hosts =>
            obtain ⟨tail, rfl, -⟩ := starts_of_splitTopic hrest
            exact absurd (startsWith_iff.mpr ⟨tail, rfl⟩) hstate
      · rw [if_neg hgroup]
        cases more with
        | nil => rfl
        | cons kind more =>
            cases more with
            | nil => rfl
            | cons edgeNode more => rfl
    · rw [if_neg hsparkplug]
      cases hsplit : splitTopic topic with
      | nil => exact absurd hsplit (splitTopic_ne_nil topic)
      | cons version segments =>
          cases segments with
          | nil =>
              rw [orderingDomain, hsplit]
              rfl
          | cons second rest =>
              have hversion : version ≠ lit "spBv1.0" := by
                rintro rfl
                obtain ⟨tail, rfl, -⟩ := starts_of_splitTopic hsplit
                exact hsparkplug (startsWith_iff.mpr ⟨tail, rfl⟩)
              rw [orderingDomain, hsplit]
              dsimp only
              rw [if_neg hversion]
              rfl

/-- A group named `STATE` has no edge nodes. -/
theorem group_ne_state {topic g e : Str} (h : orderingDomain topic = some (.edgeNode g e)) : g ≠ lit "STATE" := by
  rw [orderingDomain] at h
  split at h
  · next version second rest _ =>
      split at h
      · split at h
        · cases hhead : rest.head? with
          | none =>
              rw [hhead] at h
              cases h
          | some host =>
              rw [hhead] at h
              cases h
        · next hstate =>
            obtain ⟨edgeNode, -, heq⟩ := Option.map_eq_some_iff.mp h
            cases heq
            exact hstate
      · cases h
  · cases h

/-- The parts tell the site and the domain. -/
theorem parts_injective {siteId siteId' topic topic' : Str} {d d' : OrderingDomain} (hd : orderingDomain topic = some d)
    (hd' : orderingDomain topic' = some d') (h : d.parts siteId = d'.parts siteId') : siteId = siteId' ∧ d = d' := by
  cases d with
  | topic t =>
      cases d' with
      | topic t' =>
          obtain ⟨hsite, h⟩ := List.cons.inj h
          exact ⟨hsite, by rw [(List.cons.inj (List.cons.inj h).2).1]⟩
      | edgeNode g e => cases congrArg List.length h
      | host host => cases congrArg List.length h
  | edgeNode g e =>
      cases d' with
      | topic t => cases congrArg List.length h
      | edgeNode g' e' =>
          obtain ⟨hsite, h⟩ := List.cons.inj h
          obtain ⟨hg, h⟩ := List.cons.inj (List.cons.inj h).2
          exact ⟨hsite, by rw [hg, (List.cons.inj h).1]⟩
      | host host =>
          obtain ⟨-, h⟩ := List.cons.inj h
          exact absurd (List.cons.inj (List.cons.inj h).2).1 (group_ne_state hd)
  | host host =>
      cases d' with
      | topic t => cases congrArg List.length h
      | edgeNode g e =>
          obtain ⟨-, h⟩ := List.cons.inj h
          exact absurd (List.cons.inj (List.cons.inj h).2).1.symm (group_ne_state hd')
      | host host' =>
          obtain ⟨hsite, h⟩ := List.cons.inj h
          obtain ⟨-, h⟩ := List.cons.inj (List.cons.inj h).2
          exact ⟨hsite, by rw [(List.cons.inj h).1]⟩

/-! ## The bytes of a key -/

theorem elemsWf_texts (parts : List Str) : elemsWf (parts.map .str) := by
  induction parts with
  | nil => exact trivial
  | cons s parts ih => exact ⟨trivial, ih⟩

theorem elemsError_texts (lim : Limits) (depth : Nat) (parts : List Str) :
    elemsError lim depth (parts.map .str) = none := by
  induction parts with
  | nil => rfl
  | cons s parts ih =>
      rw [List.map_cons, elemsError, ih]
      cases depth <;> rfl

/-- The text of a list of texts is read as that list. -/
theorem text_injective {parts parts' : List Str}
    (h : (Json.arr (parts.map .str)).text = (Json.arr (parts'.map .str)).text) : parts = parts' := by
  have hloads : ∀ ps : List Str, loads ⟨0, 1, 1⟩ (Json.arr (ps.map .str)).text = .ok (.arr (ps.map .str)) := by
    intro ps
    have hwf : (Json.arr (ps.map .str)).Wf := by
      rw [Json.Wf]
      exact elemsWf_texts ps
    have herror : (Json.arr (ps.map .str)).dumpsError ⟨0, 1, 1⟩ 1 = none := by
      rw [Json.dumpsError, elemsError_texts]
    rw [loads_text _ hwf]
    simp only [herror]
  have hsame := hloads parts
  rw [h, hloads parts'] at hsame
  have hmap := Json.arr.inj (Except.ok.inj hsame)
  exact (List.map_injective_iff.mpr fun a b => Json.str.inj) hmap.symm

theorem utf8Encode_injective {s t : Str} {b : Bytes} (hs : utf8Encode s = some b) (ht : utf8Encode t = some b) : s = t :=
  Option.some.inj ((utf8Decode_encode hs).symm.trans (utf8Decode_encode ht))

theorem jsonBytes_ok {lim : Limits} {v : Json} {b : Bytes} (h : jsonBytes lim v = .ok b) : utf8Encode v.text = some b := by
  rw [jsonBytes, dumps] at h
  cases herror : v.dumpsError lim lim.dumpsDepth with
  | some e =>
      rw [herror] at h
      cases h
  | none =>
      rw [herror] at h
      dsimp only at h
      cases hencode : utf8Encode v.text with
      | none =>
          rw [hencode] at h
          cases h
      | some b' =>
          rw [hencode] at h
          cases h
          rfl

/-- A key is the encoded text of the parts of a domain. -/
theorem eventKey_ok {lim : Limits} {siteId topic : Str} {key : Bytes} (h : eventKey lim siteId topic = .ok key) :
    ∃ domain, orderingDomain topic = some domain ∧
      utf8Encode (Json.arr ((domain.parts siteId).map .str)).text = some key := by
  rw [eventKey] at h
  obtain ⟨parts, hparts, hbytes⟩ := bind_ok.mp h
  rw [keyParts_eq] at hparts
  cases hdomain : orderingDomain topic with
  | none =>
      rw [hdomain] at hparts
      cases hparts
  | some domain =>
      rw [hdomain] at hparts
      cases hparts
      exact ⟨domain, rfl, jsonBytes_ok hbytes⟩

/-- A topic with a domain has a key, if the key can be encoded. -/
theorem exists_eventKey {lim : Limits} {siteId topic : Str} {domain : OrderingDomain} (hdepth : lim.dumpsDepth ≠ 0)
    (hdomain : orderingDomain topic = some domain)
    (hscalar : (Json.arr ((domain.parts siteId).map .str)).text.all isScalar = true) :
    ∃ key, eventKey lim siteId topic = .ok key := by
  obtain ⟨depth, hdepth⟩ := Nat.exists_eq_succ_of_ne_zero hdepth
  have herror : (Json.arr ((domain.parts siteId).map .str)).dumpsError lim lim.dumpsDepth = none := by
    rw [hdepth, Json.dumpsError, elemsError_texts]
  have hbytes : ∃ key, jsonBytes lim (.arr ((domain.parts siteId).map .str)) = .ok key := by
    rw [jsonBytes, dumps, herror]
    dsimp only
    rw [utf8Encode, if_pos hscalar]
    exact ⟨_, rfl⟩
  obtain ⟨key, hkey⟩ := hbytes
  refine ⟨key, bind_ok.mpr ⟨domain.parts siteId, ?_, hkey⟩⟩
  rw [keyParts_eq, hdomain]

/-- Two keys are equal exactly when the site and the ordering domain are. -/
theorem eventKey_eq_iff {lim : Limits} {siteId siteId' topic topic' : Str} {key key' : Bytes}
    (h : eventKey lim siteId topic = .ok key) (h' : eventKey lim siteId' topic' = .ok key') :
    key = key' ↔ siteId = siteId' ∧ orderingDomain topic = orderingDomain topic' := by
  obtain ⟨domain, hdomain, hkey⟩ := eventKey_ok h
  obtain ⟨domain', hdomain', hkey'⟩ := eventKey_ok h'
  rw [hdomain, hdomain', Option.some.injEq]
  constructor
  · rintro rfl
    exact parts_injective hdomain hdomain' (text_injective (utf8Encode_injective hkey hkey'))
  · rintro ⟨rfl, rfl⟩
    exact Option.some.inj (hkey.symm.trans hkey')

/-- An edge node and its device have one key. -/
theorem eventKey_eq_iff_device : ∃ key key', eventKey ⟨0, 10, 10⟩ (lit "p") (lit "spBv1.0/g/NDATA/n") = .ok key ∧
    eventKey ⟨0, 10, 10⟩ (lit "p") (lit "spBv1.0/g/DDATA/n/d") = .ok key' ∧
    (key = key' ↔ lit "p" = lit "p" ∧
      orderingDomain (lit "spBv1.0/g/NDATA/n") = orderingDomain (lit "spBv1.0/g/DDATA/n/d")) := by
  obtain ⟨key, hkey⟩ := @exists_eventKey ⟨0, 10, 10⟩ (lit "p") (lit "spBv1.0/g/NDATA/n")
    (.edgeNode (lit "g") (lit "n")) (by decide) rfl (by decide +kernel)
  obtain ⟨key', hkey'⟩ := @exists_eventKey ⟨0, 10, 10⟩ (lit "p") (lit "spBv1.0/g/DDATA/n/d")
    (.edgeNode (lit "g") (lit "n")) (by decide) rfl (by decide +kernel)
  exact ⟨key, key', hkey, hkey', eventKey_eq_iff hkey hkey'⟩

end Uns
