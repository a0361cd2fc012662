/-
# `Sparkplug.Generator` — the sequence numbers of an edge node

`SpBMessageGenerator` of `uns_spb_helper.py`: two counters that wrap at 256, and the
builders of the five messages.  `getNodeBirthPayload` takes a new birth/death number of
its own, and `getNodeDataPayload` is `getNodeBirthPayload`, so a birth never carries the
number of the death before it (`birth_number`), and a run keeps the protocol when it has
no birth at all (`keepsProtocol_iff`).  The message numbers of a session are in order where
each node data message comes when the counter has just wrapped (`ordered_iff`).
-/
import UnifiedNamespace.Python.Str

namespace Uns.SparkplugNode

open Py

/-! ## The builders -/

structure Metric where
  name : Str
  datatype : Nat
  longValue : Nat
  timestamp : Nat

structure Payload where
  timestamp : Option Nat
  seq : Option Nat
  metrics : List Metric

/-- `Payload()`. -/
def Payload.blank : Payload := ⟨none, none, []⟩

structure Generator where
  msgSeqNumber : Nat
  birthDeathSeqNum : Nat

/-- The class attributes. -/
def Generator.init : Generator := ⟨0, 0⟩

/-- A counter and its value before. -/
def bump (n : Nat) : Nat := if n + 1 = 256 then 0 else n + 1

def getSeqNum (g : Generator) : Nat × Generator :=
  (g.msgSeqNumber, { g with msgSeqNumber := bump g.msgSeqNumber })

def getBirthSeqNum (g : Generator) : Nat × Generator :=
  (g.birthDeathSeqNum, { g with birthDeathSeqNum := bump g.birthDeathSeqNum })

/-- `SPBMetricDataTypes.Int64`. -/
def int64 : Nat := 4

def addBdSeq (payload : Payload) (value timestamp : Nat) : Payload :=
  { payload with metrics := payload.metrics ++ [⟨lit "bdSeq", int64, value, timestamp⟩] }

/-- What a builder is called with, and the clock. -/
structure Arguments where
  payload : Option Payload
  timestamp : Option Nat
  now : Nat

def getNodeDeathPayload (g : Generator) (a : Arguments) : Payload × Generator :=
  let (number, g) := getBirthSeqNum g
  (addBdSeq (a.payload.getD .blank) number a.now, g)

def getNodeBirthPayload (g : Generator) (a : Arguments) : Payload × Generator :=
  let g := { g with msgSeqNumber := 0 }
  let timestamp := a.timestamp.getD a.now
  let (seq, g) := getSeqNum g
  let (number, g) := getBirthSeqNum g
  (addBdSeq { a.payload.getD .blank with timestamp := some timestamp, seq := some seq } number timestamp, g)

/-- Without a timestamp. -/
def getNodeDataPayload (g : Generator) (a : Arguments) : Payload × Generator :=
  getNodeBirthPayload g { a with timestamp := none }

def getDeviceBirthPayload (g : Generator) (a : Arguments) : Payload × Generator :=
  let (seq, g) := getSeqNum g
  ({ a.payload.getD .blank with timestamp := some (a.timestamp.getD a.now), seq := some seq }, g)

def getDeviceDataPayload (g : Generator) (a : Arguments) : Payload × Generator :=
  getDeviceBirthPayload g a

/-! ## Runs -/

inductive Kind where
  | nodeDeath
  | nodeBirth
  | nodeData
  | deviceBirth
  | deviceData
deriving DecidableEq

structure Call where
  kind : Kind
  arguments : Arguments

structure Sent where
  kind : Kind
  payload : Payload

def build (g : Generator) (c : Call) : Payload × Generator :=
  match c.kind with
  | .nodeDeath => getNodeDeathPayload g c.arguments
  | .nodeBirth => getNodeBirthPayload g c.arguments
  | .nodeData => getNodeDataPayload g c.arguments
  | .deviceBirth => getDeviceBirthPayload g c.arguments
  | .deviceData => getDeviceDataPayload g c.arguments

/-- The messages of a run. -/
def run (g : Generator) : List Call → List Sent
  | [] => []
  | c :: calls => ⟨c.kind, (build g c).1⟩ :: run (build g c).2 calls

/-- A birth follows a death; data and devices follow a birth, a death only ends them. -/
def follows : Kind → Kind → Prop
  | _, .nodeDeath => True
  | before, .nodeBirth => before = .nodeDeath
  | before, _ => before ≠ .nodeDeath

/-- A run starts with a death, the will of the connection. -/
def Legal (calls : List Call) : Prop :=
  (∀ c ∈ calls.head?, c.kind = .nodeDeath) ∧
    calls.IsChain fun before after => follows before.kind after.kind

/-- The number a message carries: its last metric. -/
def bdSeq (m : Sent) : Option Nat := m.payload.metrics.getLast?.map (·.longValue)

/-- A birth carries the number of the death before it. -/
def Paired (sent : List Sent) : Prop :=
  sent.IsChain fun before after => after.kind = .nodeBirth → bdSeq after = bdSeq before

/-- From one death to the next the number goes up by one. -/
def Counted (sent : List Sent) : Prop :=
  (sent.filter fun m => m.kind = .nodeDeath).IsChain fun before after =>
    bdSeq after = (bdSeq before).map fun n => (n + 1) % 256

/-- A birth starts at 0, and in its session each message is numbered after the one before. -/
def Ordered (sent : List Sent) : Prop :=
  (∀ m ∈ sent, m.kind = .nodeBirth → m.payload.seq = some 0) ∧
    sent.IsChain fun before after => after.kind ≠ .nodeDeath → after.kind ≠ .nodeBirth →
      after.payload.seq = before.payload.seq.map fun n => (n + 1) % 256

structure KeepsProtocol (sent : List Sent) : Prop where
  paired : Paired sent
  counted : Counted sent
  ordered : Ordered sent

/-! ## What one message carries -/

theorem bump_eq {n : Nat} (h : n < 256) : bump n = (n + 1) % 256 := by
  rw [bump]
  split
  · omega
  · omega

theorem bump_lt {n : Nat} (h : n < 256) : bump n < 256 := by
  rw [bump_eq h]
  exact Nat.mod_lt _ (by decide)

/-- The counters stay below 256. -/
def Generator.Bounded (g : Generator) : Prop := g.msgSeqNumber < 256 ∧ g.birthDeathSeqNum < 256

theorem build_bounded {g : Generator} (h : g.Bounded) (c : Call) : (build g c).2.Bounded := by
  obtain ⟨kind, arguments⟩ := c
  have hzero : bump 0 < 256 := by decide
  cases kind with
  | nodeDeath => exact ⟨h.1, bump_lt h.2⟩
  | nodeBirth => exact ⟨hzero, bump_lt h.2⟩
  | nodeData => exact ⟨hzero, bump_lt h.2⟩
  | deviceBirth => exact ⟨bump_lt h.1, h.2⟩
  | deviceData => exact ⟨bump_lt h.1, h.2⟩

theorem bdSeq_addBdSeq (kind : Kind) (payload : Payload) (value timestamp : Nat) :
    bdSeq ⟨kind, addBdSeq payload value timestamp⟩ = some value := by
  rw [bdSeq, addBdSeq, List.getLast?_concat]
  rfl

/-- A death and a birth carry the number of the counter, and move it on. -/
theorem build_number {g : Generator} {c : Call} (h : c.kind = .nodeDeath ∨ c.kind = .nodeBirth) :
    bdSeq ⟨c.kind, (build g c).1⟩ = some g.birthDeathSeqNum ∧
      (build g c).2.birthDeathSeqNum = bump g.birthDeathSeqNum := by
  obtain ⟨kind, arguments⟩ := c
  rcases h with h | h
  · cases h
    exact ⟨bdSeq_addBdSeq _ _ _ _, rfl⟩
  · cases h
    exact ⟨bdSeq_addBdSeq _ _ _ _, rfl⟩

/-- A message that is no death leaves the message counter one after its own number. -/
theorem build_seq {g : Generator} (h : g.Bounded) {c : Call} (hc : c.kind ≠ .nodeDeath) :
    (build g c).1.seq.map (fun n => (n + 1) % 256) = some (build g c).2.msgSeqNumber := by
  obtain ⟨kind, arguments⟩ := c
  cases kind with
  | nodeDeath => exact absurd rfl hc
  | nodeBirth => rfl
  | nodeData => rfl
  | deviceBirth => exact congrArg some (bump_eq h.1).symm
  | deviceData => exact congrArg some (bump_eq h.1).symm

/-- Data and device messages carry the number of the counter, but node data carries 0. -/
theorem build_next {g : Generator} {c : Call} (hdeath : c.kind ≠ .nodeDeath) (hbirth : c.kind ≠ .nodeBirth) :
    (build g c).1.seq = some g.msgSeqNumber ↔ (c.kind = .nodeData → g.msgSeqNumber = 0) := by
  obtain ⟨kind, arguments⟩ := c
  cases kind with
  | nodeDeath => exact absurd rfl hdeath
  | nodeBirth => exact absurd rfl hbirth
  | nodeData => exact ⟨fun h _ => (Option.some.inj h).symm, fun h => congrArg some (h rfl).symm⟩
  | deviceBirth => exact ⟨fun _ h => (nomatch h), fun _ => rfl⟩
  | deviceData => exact ⟨fun _ h => (nomatch h), fun _ => rfl⟩

/-- A birth never carries the number of the death before it. -/
theorem birth_number {g : Generator} (h : g.Bounded) {death birth : Call} (hd : death.kind = .nodeDeath)
    (hb : birth.kind = .nodeBirth) :
    bdSeq ⟨birth.kind, (build (build g death).2 birth).1⟩ ≠ bdSeq ⟨death.kind, (build g death).1⟩ := by
  obtain ⟨hdeath, hbumped⟩ := build_number (g := g) (.inl hd)
  obtain ⟨hbirth, _⟩ := build_number (g := (build g death).2) (.inr hb)
  rw [hdeath, hbirth, hbumped, bump_eq h.2]
  intro heq
  have heq := Option.some.inj heq
  have hlt := h.2
  omega

/-! ## Whole runs -/

section

variable {g : Generator} {c : Call} {calls : List Call}

theorem run_chain_cons {R : Sent → Sent → Prop} {c' : Call} :
    (run g (c :: c' :: calls)).IsChain R ↔
      R ⟨c.kind, (build g c).1⟩ ⟨c'.kind, (build (build g c).2 c').1⟩ ∧
        (run (build g c).2 (c' :: calls)).IsChain R :=
  List.isChain_cons_cons

theorem Legal.tail_deaths (h : Legal calls) (hbirth : ∀ c ∈ calls, c.kind ≠ .nodeBirth) :
    ∀ c ∈ calls, c.kind = .nodeDeath := by
  obtain ⟨hhead, hchain⟩ := h
  induction calls with
  | nil => exact fun _ hc => (nomatch hc)
  | cons c calls ih =>
      have hc := hhead c rfl
      refine List.forall_mem_cons.mpr ⟨hc, ih (fun c' hc' => hbirth c' (List.mem_cons_of_mem _ hc')) ?_ ?_⟩
      · intro c' hc'
        have hmem : c' ∈ calls := List.mem_of_mem_head? hc'
        have hfollows := hchain.rel_head? hc'
        rw [hc] at hfollows
        have hbirth' := hbirth c' (List.mem_cons_of_mem _ hmem)
        cases hkind : c'.kind with
        | nodeDeath => rfl
        | nodeBirth => exact absurd hkind hbirth'
        | nodeData => exact absurd rfl (hkind ▸ hfollows : follows .nodeDeath .nodeData)
        | deviceBirth => exact absurd rfl (hkind ▸ hfollows : follows .nodeDeath .deviceBirth)
        | deviceData => exact absurd rfl (hkind ▸ hfollows : follows .nodeDeath .deviceData)
      · exact hchain.tail

/-- Deaths alone count up. -/
theorem run_deaths (hg : g.Bounded) (h : ∀ c ∈ calls, c.kind = .nodeDeath) :
    KeepsProtocol (run g calls) ∧ ∀ m ∈ (run g calls).head?, bdSeq m = some g.birthDeathSeqNum := by
  induction calls generalizing g with
  | nil => exact ⟨⟨.nil, .nil, fun _ hm => (nomatch hm), .nil⟩, fun _ hm => (nomatch hm)⟩
  | cons c calls ih =>
      obtain ⟨hc, hcalls⟩ := List.forall_mem_cons.mp h
      obtain ⟨hnumber, hbumped⟩ := build_number (g := g) (.inl hc)
      obtain ⟨⟨hpaired, hcounted, hstart, hordered⟩, hhead⟩ := ih (build_bounded hg c) hcalls
      have hdeaths : ∀ m ∈ run (build g c).2 calls, m.kind = .nodeDeath := by
        clear hhead hordered hstart hcounted hpaired ih hbumped hnumber
        generalize (build g c).2 = g'
        induction calls generalizing g' with
        | nil => exact fun _ hm => (nomatch hm)
        | cons c' calls ih' =>
            obtain ⟨hc', hcalls'⟩ := List.forall_mem_cons.mp hcalls
            exact List.forall_mem_cons.mpr ⟨hc', ih' (List.forall_mem_cons.mpr ⟨hc, hcalls'⟩) hcalls' _⟩
      have hnext : ∀ m ∈ (run (build g c).2 calls).head?, m.kind = .nodeDeath := fun m hm =>
        hdeaths m (List.mem_of_mem_head? hm)
      refine ⟨⟨?_, ?_, ?_, ?_⟩, ?_⟩
      · exact hpaired.cons fun m hm hbirth => absurd (hnext m hm) (hbirth ▸ by decide)
      · have hfilter : ∀ ms : List Sent, (∀ m ∈ ms, m.kind = .nodeDeath) →
            ms.filter (fun m => m.kind = .nodeDeath) = ms := fun ms hms =>
          List.filter_eq_self.mpr fun m hm => decide_eq_true (hms m hm)
        rw [Counted, hfilter _ hdeaths] at hcounted
        have hall : ∀ m ∈ run g (c :: calls), m.kind = .nodeDeath :=
          List.forall_mem_cons.mpr ⟨hc, hdeaths⟩
        rw [Counted, hfilter _ hall]
        refine hcounted.cons fun m hm => ?_
        rw [hhead m hm, hnumber, hbumped, bump_eq hg.2]
        rfl
      · intro m hm hbirth
        rcases List.mem_cons.mp hm with rfl | hm
        · exact absurd (hc.symm.trans hbirth) (by decide)
        · exact hstart m hm hbirth
      · exact hordered.cons fun m hm hdeath => absurd (hnext m hm) hdeath
      · intro m hm
        cases hm
        exact hnumber

/-- A run with a birth breaks the pairing. -/
theorem run_birth (hg : g.Bounded) (hchain : (c :: calls).IsChain fun before after => follows before.kind after.kind)
    (hbirth : ∃ c' ∈ calls, c'.kind = .nodeBirth) : ¬ Paired (run g (c :: calls)) := by
  induction calls generalizing g c with
  | nil =>
      obtain ⟨_, hmem, _⟩ := hbirth
      cases hmem
  | cons c' calls ih =>
      obtain ⟨hfollows, hrest⟩ := List.isChain_cons_cons.mp hchain
      intro hpaired
      obtain ⟨hhead, htail⟩ := run_chain_cons.mp hpaired
      by_cases hc' : c'.kind = .nodeBirth
      · rw [hc'] at hfollows
        exact birth_number hg hfollows hc' (hhead hc')
      · obtain ⟨b, hb, hkind⟩ := hbirth
        rcases List.mem_cons.mp hb with rfl | hb
        · exact hc' hkind
        · exact ih (build_bounded hg c) hrest ⟨b, hb, hkind⟩ htail

/-- A legal run keeps the protocol exactly when it has no birth. -/
theorem keepsProtocol_iff (h : Legal calls) :
    KeepsProtocol (run .init calls) ↔ ∀ c ∈ calls, c.kind ≠ .nodeBirth := by
  have hinit : Generator.init.Bounded := ⟨by decide, by decide⟩
  constructor
  · intro hkeeps b hb hkind
    cases calls with
    | nil => cases hb
    | cons c calls =>
        rcases List.mem_cons.mp hb with rfl | hb
        · exact absurd ((h.1 b rfl).symm.trans hkind) (by decide)
        · exact run_birth hinit h.2 ⟨b, hb, hkind⟩ hkeeps.paired
  · intro hbirth
    exact (run_deaths hinit (h.tail_deaths hbirth)).1

end

/-! ## The message numbers -/

/-- Each node data message is built when the message counter is at 0. -/
def DataAtZero (g : Generator) : List Call → Prop
  | [] => True
  | c :: calls => (c.kind = .nodeData → g.msgSeqNumber = 0) ∧ DataAtZero (build g c).2 calls

/-- The number after a message is right exactly when node data finds the counter at 0. -/
theorem build_ordered {g : Generator} (hg : g.Bounded) {c c' : Call} (h : follows c.kind c'.kind) :
    (c'.kind ≠ .nodeDeath → c'.kind ≠ .nodeBirth →
      (build (build g c).2 c').1.seq = (build g c).1.seq.map fun n => (n + 1) % 256) ↔
      (c'.kind = .nodeData → (build g c).2.msgSeqNumber = 0) := by
  by_cases hdeath : c'.kind = .nodeDeath
  · exact ⟨fun _ hdata => absurd (hdeath.symm.trans hdata) (by decide), fun _ h => absurd hdeath h⟩
  · by_cases hbirth : c'.kind = .nodeBirth
    · exact ⟨fun _ hdata => absurd (hbirth.symm.trans hdata) (by decide), fun _ _ h => absurd hbirth h⟩
    · have hc : c.kind ≠ .nodeDeath := by
        intro hc
        cases hkind : c'.kind with
        | nodeDeath => exact hdeath hkind
        | nodeBirth => exact hbirth hkind
        | nodeData => exact absurd hc (hkind ▸ h : follows c.kind .nodeData)
        | deviceBirth => exact absurd hc (hkind ▸ h : follows c.kind .deviceBirth)
        | deviceData => exact absurd hc (hkind ▸ h : follows c.kind .deviceData)
      rw [build_seq hg hc, ← build_next hdeath hbirth]
      exact ⟨fun heq => heq hdeath hbirth, fun heq _ _ => heq⟩

theorem run_ordered {g : Generator} (hg : g.Bounded) {c : Call} {calls : List Call}
    (hchain : (c :: calls).IsChain fun before after => follows before.kind after.kind) :
    ((run g (c :: calls)).IsChain fun before after => after.kind ≠ .nodeDeath → after.kind ≠ .nodeBirth →
        after.payload.seq = before.payload.seq.map fun n => (n + 1) % 256) ↔
      DataAtZero (build g c).2 calls := by
  induction calls generalizing g c with
  | nil => exact ⟨fun _ => trivial, fun _ => List.isChain_singleton _⟩
  | cons c' calls ih =>
      obtain ⟨hfollows, hrest⟩ := List.isChain_cons_cons.mp hchain
      rw [run_chain_cons, ih (build_bounded hg c) hrest, DataAtZero]
      exact and_congr_left fun _ => build_ordered hg hfollows

theorem run_birth_zero (g : Generator) (calls : List Call) :
    ∀ m ∈ run g calls, m.kind = .nodeBirth → m.payload.seq = some 0 := by
  induction calls generalizing g with
  | nil => exact fun _ hm => (nomatch hm)
  | cons c calls ih =>
      refine List.forall_mem_cons.mpr ⟨fun hbirth => ?_, ih (build g c).2⟩
      obtain ⟨kind, arguments⟩ := c
      cases hbirth
      rfl

/-- The messages of the sessions of a legal run are numbered in order exactly when each node
data message is built with the message counter at 0. -/
theorem ordered_iff {calls : List Call} (h : Legal calls) :
    Ordered (run .init calls) ↔ DataAtZero .init calls := by
  have hinit : Generator.init.Bounded := ⟨by decide, by decide⟩
  cases calls with
  | nil => exact ⟨fun _ => trivial, fun _ => ⟨fun _ hm => (nomatch hm), .nil⟩⟩
  | cons c calls =>
      have hdeath := h.1 c rfl
      rw [Ordered, run_ordered hinit h.2, DataAtZero]
      exact ⟨fun hordered => ⟨fun hdata => absurd (hdeath.symm.trans hdata) (by decide), hordered.2⟩,
        fun hzero => ⟨run_birth_zero _ _, hzero.2⟩⟩

/-- The will of a connection. -/
def will : Call := ⟨.nodeDeath, ⟨none, none, 0⟩⟩

theorem keepsProtocol_iff_wills :
    KeepsProtocol (run .init [will, will]) ↔ ∀ c ∈ [will, will], c.kind ≠ .nodeBirth :=
  keepsProtocol_iff ⟨fun c hc => by cases hc; rfl, List.isChain_pair.mpr trivial⟩

/-- A death and the birth after it carry different numbers. -/
theorem birth_unpaired : Legal [will, ⟨.nodeBirth, ⟨none, none, 0⟩⟩] ∧
    ¬ KeepsProtocol (run .init [will, ⟨.nodeBirth, ⟨none, none, 0⟩⟩]) := by
  refine ⟨⟨fun c hc => by cases hc; rfl, List.isChain_pair.mpr rfl⟩, fun h => ?_⟩
  have hpaired := List.isChain_pair.mp h.paired rfl
  exact absurd hpaired (by decide)

end Uns.SparkplugNode
