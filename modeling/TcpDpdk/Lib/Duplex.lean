import Mathlib.Logic.Function.Basic
import TcpDpdk.Lib.Network

/-!
# Two machines on one wire

Two machines of one kind, joined by a wire that loses nothing and keeps the order. A
machine may also take inputs from outside: `act` is one whose messages go out on the
wire, `aside` one that is none of the other side's business and whose messages go
elsewhere. The whole is a machine again.
-/

namespace Duplex

inductive Side where
  | left | right
  deriving DecidableEq

def Side.other : Side → Side
  | .left => .right
  | .right => .left

@[simp] theorem Side.other_other (i : Side) : i.other.other = i := by cases i <;> rfl

@[simp] theorem Side.other_ne (i : Side) : i.other ≠ i := by cases i <;> simp [Side.other]

@[simp] theorem Side.ne_other (i : Side) : i ≠ i.other := (Side.other_ne i).symm

theorem Side.eq_or_other (i j : Side) : j = i ∨ j = i.other := by
  cases i <;> cases j <;> simp [Side.other]

theorem Side.forall_iff {P : Side → Prop} (i : Side) : (∀ j, P j) ↔ P i ∧ P i.other := by
  constructor
  · intro h
    exact ⟨h i, h i.other⟩
  · intro h j
    rcases i.eq_or_other j with rfl | rfl
    · exact h.1
    · exact h.2

instance {P : Side → Prop} [DecidablePred P] : Decidable (∀ j, P j) :=
  decidable_of_iff _ (Side.forall_iff .left).symm

variable {σ α ο ε μ : Type}

structure Net (σ μ : Type) where
  node : Side → σ
  /-- on its way to each side, the oldest first -/
  toward : Side → List μ

inductive Input (α ε : Type) where
  | deliver (i : Side) (env : ε)
  | act (i : Side) (a : α)
  | aside (i : Side) (a : α)

variable {M : Machine σ α ο} (L : Network.Link M ε μ)

def Net.take (n : Net σ μ) (i : Side) (a : α) (toward : ο → Side → List μ) :
    Option (Net σ μ × ο) :=
  (M.step (n.node i) a).map fun (s, out) =>
    (⟨Function.update n.node i s, toward out⟩, out)

def Net.sends (n : Net σ μ) (i : Side) (rest : List μ) (out : ο) : Side → List μ :=
  Function.update (Function.update n.toward i rest) i.other (n.toward i.other ++ L.emit out)

def wire : Machine (Net σ μ) (Input α ε) ο where
  init n := (∀ i, M.init (n.node i)) ∧ ∀ i, n.toward i = []
  step n
    | .deliver i env =>
      match n.toward i with
      | [] => none
      | m :: rest => n.take (M := M) i (L.recv env m) (n.sends L i rest)
    | .act i a => n.take (M := M) i a (n.sends L i (n.toward i))
    | .aside i a => n.take (M := M) i a fun _ => n.toward

variable {L}

theorem take_some {n n' : Net σ μ} {i : Side} {a : α} {toward : ο → Side → List μ} {out : ο}
    (h : n.take (M := M) i a toward = some (n', out)) : ∃ s, M.step (n.node i) a = some (s, out) ∧
      n' = ⟨Function.update n.node i s, toward out⟩ := by
  obtain ⟨⟨s, out'⟩, hs, he⟩ := Option.map_eq_some_iff.mp h
  cases he
  exact ⟨s, hs, rfl⟩

/-- What the machine on side `i` takes, and what is on the wire afterwards. -/
inductive Takes (n : Net σ μ) : Input α ε → Side → α → (ο → Side → List μ) → Prop
  | deliver {i env m rest} : n.toward i = m :: rest →
      Takes n (.deliver i env) i (L.recv env m) (n.sends L i rest)
  | act {i a} : Takes n (.act i a) i a (n.sends L i (n.toward i))
  | aside {i a} : Takes n (.aside i a) i a fun _ => n.toward

theorem event_takes (e : (wire L).Event) : ∃ i a toward s,
    Takes (L := L) e.pre e.input i a toward ∧ M.step (e.pre.node i) a = some (s, e.out) ∧
      e.post = ⟨Function.update e.pre.node i s, toward e.out⟩ := by
  obtain ⟨n, input, n', out, h⟩ := e
  cases input with
  | deliver i env =>
    simp only [wire] at h
    split at h
    · cases h
    · rename_i m rest hm
      obtain ⟨s, hs, hn⟩ := take_some h
      exact ⟨i, _, _, s, .deliver hm, hs, hn⟩
  | act i a =>
    obtain ⟨s, hs, hn⟩ := take_some h
    exact ⟨i, _, _, s, .act, hs, hn⟩
  | aside i a =>
    have h : n.take (M := M) i a (fun _ => n.toward) = some (n', out) := h
    obtain ⟨s, hs, hn⟩ := take_some h
    exact ⟨i, _, _, s, .aside, hs, hn⟩

theorem deliver_ne_none {n : Net σ μ} {i : Side} {env : ε} {m : μ} {rest : List μ}
    (hm : n.toward i = m :: rest) (hs : M.step (n.node i) (L.recv env m) ≠ none) :
    (wire L).step n (.deliver i env) ≠ none := by
  simp only [wire, hm, Net.take, Ne, Option.map_eq_none_iff]
  exact hs

theorem run_nodes {tr : List (wire L).Event} {n : Net σ μ} (h : Machine.Run tr n) :
    ∀ i, ∃ tr' : List M.Event, Machine.Run tr' (n.node i) := by
  refine Machine.Run.induct
    (P := fun _ n => ∀ i, ∃ tr' : List M.Event, Machine.Run tr' (n.node i)) ?_ ?_ h
  · intro n hn i
    exact ⟨[], Machine.run_nil.mpr (hn.1 i)⟩
  · intro tr e _ ih i
    obtain ⟨j, a, toward, s, -, hs, he⟩ := event_takes e
    rw [he]
    by_cases hj : i = j
    · subst hj
      obtain ⟨tr', hr⟩ := ih i
      simp only [Function.update_self]
      exact ⟨tr' ++ [⟨e.pre.node i, a, s, e.out, hs⟩], Machine.run_snoc.mpr ⟨hr, rfl⟩⟩
    · simp only [Function.update_of_ne hj]
      exact ih i

end Duplex
