/-
# `Lib.Clients` — programs that share a state through requests

A client asks for one thing after the other and goes on with the answers; what a request
does to the shared state is up to the service and to an environment that may let it fail.
Any number of processes call clients, and between two requests of one the others make
theirs.

A contract gives what a request may rely on, what every request guarantees the others, and
what holds of a result.  A client is checked by itself, from its first request to its last,
and `Contract.safe` then speaks about every interleaving.
-/
import UnifiedNamespace.Lib.Interleaving

namespace Lib

inductive Client (ρ : Type) (A : ρ → Type) (β : Type) where
  | done (result : β)
  | ask (r : ρ) (next : A r → Client ρ A β)

def Client.result {ρ β : Type} {A : ρ → Type} : Client ρ A β → Option β
  | .done b => some b
  | .ask _ _ => none

/-- What the requests do, as the environment decides, and the client of each call. -/
structure Service (σ φ κ ρ β : Type) (A : ρ → Type) where
  serve : (r : ρ) → φ → σ → A r × σ
  client : κ → Client ρ A β

/-- A call: the state it was made in, what the environment decided for it so far, and the rest of its client. -/
structure Running (σ φ κ ρ β : Type) (A : ρ → Type) where
  call : κ
  started : σ
  met : List φ
  client : Client ρ A β

inductive ClientAction (κ φ : Type) where
  | call (k : κ)
  | answer (f : φ)

/-- The shared state and the call that each process has open. -/
abbrev Callers (ι σ φ κ ρ β : Type) (A : ρ → Type) := Config ι σ (Option (Running σ φ κ ρ β A))

abbrev CallerMove (ι σ φ κ ρ β : Type) (A : ρ → Type) :=
  Move ι (Option (Running σ φ κ ρ β A)) (ClientAction κ φ) Empty

namespace Service

variable {σ φ κ ρ β : Type} {A : ρ → Type}

/-- A process without an open call makes one; the next request of an open call is answered. -/
def advance (S : Service σ φ κ ρ β A) :
    ClientAction κ φ → σ → Option (Running σ φ κ ρ β A) → σ × Option (Running σ φ κ ρ β A)
  | .call k, s, none => (s, some ⟨k, s, [], S.client k⟩)
  | .call k, s, some ⟨_, _, _, .done _⟩ => (s, some ⟨k, s, [], S.client k⟩)
  | .call _, s, some run => (s, some run)
  | .answer f, s, some ⟨k, started, met, .ask r next⟩ =>
      ((S.serve r f s).2, some ⟨k, started, met ++ [f], next (S.serve r f s).1⟩)
  | .answer _, s, l => (s, l)

/-- The processes; one that starts again has no open call. -/
def program (S : Service σ φ κ ρ β A) :
    Program σ (Option (Running σ φ κ ρ β A)) (ClientAction κ φ) Empty where
  advance := S.advance
  disturb _ s := s
  entry l := l = none

end Service

/-- What the calls promise each other. -/
structure Contract (σ φ κ ρ β : Type) where
  admitted : κ → Prop
  /-- When a request of a call is answered as the contract supposes. -/
  sound : κ → ρ → φ → σ → Prop
  guarantee : σ → σ → Prop
  post : κ → σ → List φ → σ → β → Prop

variable {ι σ φ κ ρ β : Type} {A : ρ → Type}

/-- Whatever the others do between the requests, each request keeps the guarantee and the result its postcondition. -/
def Client.Meets (S : Service σ φ κ ρ β A) (C : Contract σ φ κ ρ β) (k : κ) (started : σ) :
    Client ρ A β → List φ → σ → Prop
  | .done b, met, s => C.post k started met s b
  | .ask r next, met, s =>
      ∀ t, C.guarantee s t → ∀ f, C.sound k r f t →
        C.guarantee t (S.serve r f t).2 ∧
          (next (S.serve r f t).1).Meets S C k started (met ++ [f]) (S.serve r f t).2

namespace Contract

/-- The service keeps the contract. -/
structure Valid (C : Contract σ φ κ ρ β) (S : Service σ φ κ ρ β A) : Prop where
  refl : ∀ s, C.guarantee s s
  trans : ∀ s t u, C.guarantee s t → C.guarantee t u → C.guarantee s u
  stable : ∀ k started met s t b, C.admitted k → C.guarantee s t → C.post k started met s b → C.post k started met t b
  client : ∀ k s, C.admitted k → (S.client k).Meets S C k s [] s

/-- The moves that the contract supposes. -/
def Sound (C : Contract σ φ κ ρ β) (c : Callers ι σ φ κ ρ β A) : CallerMove ι σ φ κ ρ β A → Prop
  | .advance _ (.call k) => C.admitted k
  | .advance i (.answer f) =>
      ∀ run, c.locals i = some run → ∀ r next, run.client = .ask r next → C.sound run.call r f c.shared
  | _ => True

/-- The runs of the processes from a configuration. -/
def system [DecidableEq ι] (C : Contract σ φ κ ρ β) (S : Service σ φ κ ρ β A) (init : Callers ι σ φ κ ρ β A → Prop) :
    System (Callers ι σ φ κ ρ β A) (CallerMove ι σ φ κ ρ β A) :=
  (S.program.system ι init).restrict C.Sound

/-- An open call is on the way to its postcondition. -/
def Safe (C : Contract σ φ κ ρ β) (S : Service σ φ κ ρ β A) (s : σ) (l : Option (Running σ φ κ ρ β A)) : Prop :=
  ∀ run, l = some run →
    C.admitted run.call ∧ C.guarantee run.started s ∧ run.client.Meets S C run.call run.started run.met s

variable {C : Contract σ φ κ ρ β} {S : Service σ φ κ ρ β A}

theorem Valid.meets_stable (h : C.Valid S) {k : κ} (hk : C.admitted k) {started : σ} {client : Client ρ A β} {met : List φ}
    {s t : σ} (hst : C.guarantee s t) (hmeets : client.Meets S C k started met s) : client.Meets S C k started met t := by
  cases client with
  | done b => exact h.stable _ _ _ _ _ _ hk hst hmeets
  | ask r next => exact fun u htu => hmeets u (h.trans _ _ _ hst htu)

theorem Valid.safe_none (s : σ) : C.Safe S s none := by
  intro run hrun
  cases hrun

theorem Valid.safe_call (h : C.Valid S) {k : κ} (hk : C.admitted k) (s : σ) :
    C.Safe S s (some ⟨k, s, [], S.client k⟩) := by
  intro run hrun
  cases hrun
  exact ⟨hk, h.refl s, h.client k s hk⟩

/-- One action of a process. -/
theorem Valid.advance (h : C.Valid S) {c : Callers ι σ φ κ ρ β A} {i : ι}
    {a : ClientAction κ φ} (hsound : C.Sound c (.advance i a)) (hsafe : C.Safe S c.shared (c.locals i)) :
    C.Safe S (S.advance a c.shared (c.locals i)).1 (S.advance a c.shared (c.locals i)).2 ∧
      C.guarantee c.shared (S.advance a c.shared (c.locals i)).1 := by
  cases a with
  | call k =>
      cases hl : c.locals i with
      | none => exact ⟨h.safe_call hsound c.shared, h.refl _⟩
      | some run =>
          obtain ⟨call, started, met, client⟩ := run
          cases client with
          | done b => exact ⟨h.safe_call hsound c.shared, h.refl _⟩
          | ask r next =>
              rw [hl] at hsafe
              exact ⟨hsafe, h.refl _⟩
  | answer f =>
      cases hl : c.locals i with
      | none => exact ⟨Valid.safe_none c.shared, h.refl _⟩
      | some run =>
          obtain ⟨call, started, met, client⟩ := run
          cases client with
          | done b =>
              rw [hl] at hsafe
              exact ⟨hsafe, h.refl _⟩
          | ask r next =>
              obtain ⟨hk, hstarted, hmeets⟩ := hsafe _ hl
              obtain ⟨hguarantee, hnext⟩ := hmeets c.shared (h.refl _) f (hsound _ hl r next rfl)
              refine ⟨?_, hguarantee⟩
              intro run hrun
              cases hrun
              exact ⟨hk, h.trans _ _ _ hstarted hguarantee, hnext⟩

/-- In every interleaving the open calls are safe, and what the guarantee keeps of the state holds on. -/
theorem Valid.reachable [DecidableEq ι] (h : C.Valid S) {init : Callers ι σ φ κ ρ β A → Prop}
    {I : σ → Prop} (hkept : ∀ s t, C.guarantee s t → I s → I t)
    (hinit : ∀ c, init c → I c.shared ∧ ∀ i, C.Safe S c.shared (c.locals i))
    {c : Callers ι σ φ κ ρ β A} (hc : (C.system S init).Reachable c) :
    I c.shared ∧ ∀ i, C.Safe S c.shared (c.locals i) := by
  refine Program.invariant (I := I) (A := C.Safe S) (G := C.guarantee) hinit ?_ ?_ ?_ ?_ hc
  · rintro s _ rfl
    exact Valid.safe_none s
  · intro e i a hsound hI hA
    obtain ⟨hsafe, hguarantee⟩ := h.advance hsound hA
    exact ⟨hkept _ _ hguarantee hI, hsafe, hguarantee⟩
  · exact fun e => e.elim
  · intro s t l hst hsafe run hrun
    obtain ⟨hk, hstarted, hmeets⟩ := hsafe run hrun
    exact ⟨hk, h.trans _ _ _ hstarted hst, h.meets_stable hk hst hmeets⟩

end Contract

end Lib
