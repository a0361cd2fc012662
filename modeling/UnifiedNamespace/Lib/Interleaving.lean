/-
# `Lib.Interleaving` — processes over a shared state

A program says what a process does to the shared state and to its own state in one
atomic step, and what its environment may do to the shared state.  Any number of
processes run it; each may be started afresh at any time, from a state the program
allows as an entry.

`Program.invariant` is the rule for them: an invariant of the shared state and an
assertion for each process, where every step keeps the invariant, gives the moving
process its assertion and stays within a relation under which the assertions of the
other processes are stable.
-/
import UnifiedNamespace.Lib.Transition

namespace Lib

/-- One atomic step of a process, of the environment, and where a process may start. -/
structure Program (σ ℓ α ε : Type) where
  advance : α → σ → ℓ → σ × ℓ
  disturb : ε → σ → σ
  entry : ℓ → Prop

/-- The shared state and where each process is. -/
structure Config (ι σ ℓ : Type) where
  shared : σ
  locals : ι → ℓ

inductive Move (ι ℓ α ε : Type) where
  | start (i : ι) (l : ℓ)
  | advance (i : ι) (a : α)
  | disturb (e : ε)

namespace Program

variable {ι σ ℓ α ε : Type} [DecidableEq ι]

def setLocal (locals : ι → ℓ) (i : ι) (l : ℓ) : ι → ℓ := fun j => if j = i then l else locals j

def next (P : Program σ ℓ α ε) (c : Config ι σ ℓ) : Move ι ℓ α ε → Config ι σ ℓ
  | .start i l => { c with locals := setLocal c.locals i l }
  | .advance i a =>
      ⟨(P.advance a c.shared (c.locals i)).1, setLocal c.locals i (P.advance a c.shared (c.locals i)).2⟩
  | .disturb e => { c with shared := P.disturb e c.shared }

/-- The moves that the program allows. -/
def Allowed (P : Program σ ℓ α ε) : Move ι ℓ α ε → Prop
  | .start _ l => P.entry l
  | .advance _ _ => True
  | .disturb _ => True

def system (ι : Type) [DecidableEq ι] (P : Program σ ℓ α ε) (init : Config ι σ ℓ → Prop) :
    System (Config ι σ ℓ) (Move ι ℓ α ε) where
  init := init
  step c m d := P.Allowed m ∧ d = P.next c m

/-- Several moves. -/
def run (P : Program σ ℓ α ε) (c : Config ι σ ℓ) (moves : List (Move ι ℓ α ε)) : Config ι σ ℓ :=
  moves.foldl P.next c

theorem reachable_run {P : Program σ ℓ α ε} {init : Config ι σ ℓ → Prop} {c : Config ι σ ℓ}
    (hc : (P.system ι init).Reachable c) {moves : List (Move ι ℓ α ε)}
    (hmoves : ∀ m ∈ moves, P.Allowed m) : (P.system ι init).Reachable (P.run c moves) := by
  induction moves generalizing c with
  | nil => exact hc
  | cons m moves ih =>
      exact ih (.step hc ⟨hmoves m List.mem_cons_self, rfl⟩)
        fun n hn => hmoves n (List.mem_cons_of_mem _ hn)

/-- Each move of a list meets a condition where it is made. -/
def Meets (P : Program σ ℓ α ε) (ok : Config ι σ ℓ → Move ι ℓ α ε → Prop) :
    Config ι σ ℓ → List (Move ι ℓ α ε) → Prop
  | _, [] => True
  | c, m :: moves => ok c m ∧ P.Meets ok (P.next c m) moves

instance decidableMeets (P : Program σ ℓ α ε) (ok : Config ι σ ℓ → Move ι ℓ α ε → Prop)
    [∀ c m, Decidable (ok c m)] : ∀ c moves, Decidable (P.Meets ok c moves)
  | _, [] => inferInstanceAs (Decidable True)
  | c, m :: moves =>
      have := decidableMeets P ok (P.next c m) moves
      inferInstanceAs (Decidable (_ ∧ _))

theorem reachable_run_restrict {P : Program σ ℓ α ε} {init : Config ι σ ℓ → Prop}
    {ok : Config ι σ ℓ → Move ι ℓ α ε → Prop} {c : Config ι σ ℓ}
    (hc : ((P.system ι init).restrict ok).Reachable c) {moves : List (Move ι ℓ α ε)}
    (hmoves : ∀ m ∈ moves, P.Allowed m) (hok : P.Meets ok c moves) :
    ((P.system ι init).restrict ok).Reachable (P.run c moves) := by
  induction moves generalizing c with
  | nil => exact hc
  | cons m moves ih =>
      exact ih (.step hc ⟨hok.1, hmoves m List.mem_cons_self, rfl⟩)
        (fun n hn => hmoves n (List.mem_cons_of_mem _ hn)) hok.2

/-- The rule for an invariant of the shared state and an assertion for each process. -/
theorem invariant {P : Program σ ℓ α ε} {F : Config ι σ ℓ → Prop}
    {M : Config ι σ ℓ → Move ι ℓ α ε → Prop} {I : σ → Prop} {A : σ → ℓ → Prop} {G : σ → σ → Prop}
    (hinit : ∀ c, F c → I c.shared ∧ ∀ i, A c.shared (c.locals i))
    (hentry : ∀ s l, P.entry l → A s l)
    (hadvance : ∀ (c : Config ι σ ℓ) i a, M c (.advance i a) → I c.shared →
      A c.shared (c.locals i) →
        I (P.advance a c.shared (c.locals i)).1 ∧
        A (P.advance a c.shared (c.locals i)).1 (P.advance a c.shared (c.locals i)).2 ∧
        G c.shared (P.advance a c.shared (c.locals i)).1)
    (hdisturb : ∀ e s, I s → I (P.disturb e s) ∧ G s (P.disturb e s))
    (hstable : ∀ s t l, G s t → A s l → A t l) {c : Config ι σ ℓ}
    (h : ((P.system ι F).restrict M).Reachable c) :
    I c.shared ∧ ∀ i, A c.shared (c.locals i) := by
  refine System.invariant (I := fun c => I c.shared ∧ ∀ i, A c.shared (c.locals i)) hinit ?_ h
  rintro c m d - ⟨hI, hA⟩ ⟨hok, hallowed, rfl⟩
  cases m with
  | start i l =>
      refine ⟨hI, ?_⟩
      intro j
      change A c.shared (if j = i then l else c.locals j)
      split
      · exact hentry _ _ hallowed
      · exact hA j
  | advance i a =>
      obtain ⟨hI', hA', hG⟩ := hadvance c i a hok hI (hA i)
      refine ⟨hI', ?_⟩
      intro j
      change A _ (if j = i then _ else c.locals j)
      split
      · exact hA'
      · exact hstable _ _ _ hG (hA j)
  | disturb e =>
      obtain ⟨hI', hG⟩ := hdisturb e c.shared hI
      exact ⟨hI', fun j => hstable _ _ _ hG (hA j)⟩

end Program

end Lib
