import TcpDpdk.Lib.Network

/-!
# Machines on a lossy network

Machines of one kind, as many as there are, that take commands from outside and
each other's messages, on a network that may lose, duplicate and reorder them:
whatever was sent may arrive at any machine at any time, any number of times or
never. The whole is a machine again. An invariant of it has two parts, one about
each machine and one about each message there ever was, and `Kept.step` says what
one step has to show of them.
-/

namespace Lossy

variable {ι σ α β ο ε μ : Type}

structure Net (ι σ μ : Type) where
  nodes : ι → σ
  sent : List μ

inductive Input (ι β ε : Type) where
  /-- a copy of the message of this number arrives -/
  | deliver (i : ι) (env : ε) (number : Nat)
  | act (i : ι) (b : β)

variable [DecidableEq ι] {M : Machine σ α ο} (L : Network.Link M ε μ) (cmd : β → α)

def Net.take (n : Net ι σ μ) (i : ι) (a : α) : Option (Net ι σ μ × ο) :=
  (M.step (n.nodes i) a).map fun (s, out) =>
    (⟨Function.update n.nodes i s, n.sent ++ L.emit out⟩, out)

def network : Machine (Net ι σ μ) (Input ι β ε) ο where
  init n := (∀ i, M.init (n.nodes i)) ∧ n.sent = []
  step n
    | .deliver i env number => n.sent[number]?.bind fun m => n.take L i (L.recv env m)
    | .act i b => n.take L i (cmd b)

/-- The input a step of the network is for one of the machines. -/
inductive Takes (n : Net ι σ μ) : Input ι β ε → ι → α → Prop
  | deliver {i env number m} : n.sent[number]? = some m →
      Takes n (.deliver i env number) i (L.recv env m)
  | act {i b} : Takes n (.act i b) i (cmd b)

variable {L cmd}

theorem take_some {n n' : Net ι σ μ} {i : ι} {a : α} {out : ο}
    (h : n.take L i a = some (n', out)) : ∃ s, M.step (n.nodes i) a = some (s, out) ∧
      n' = ⟨Function.update n.nodes i s, n.sent ++ L.emit out⟩ := by
  obtain ⟨⟨s, out'⟩, hs, he⟩ := Option.map_eq_some_iff.mp h
  cases he
  exact ⟨s, hs, rfl⟩

theorem event_takes (e : (network L cmd (ι := ι)).Event) : ∃ i a s,
    Takes L cmd e.pre e.input i a ∧ M.step (e.pre.nodes i) a = some (s, e.out) ∧
      e.post = ⟨Function.update e.pre.nodes i s, e.pre.sent ++ L.emit e.out⟩ := by
  obtain ⟨n, input, n', out, h⟩ := e
  cases input with
  | deliver i env number =>
    obtain ⟨m, hm, h⟩ := Option.bind_eq_some_iff.mp h
    obtain ⟨s, hs, hn⟩ := take_some h
    exact ⟨i, _, s, .deliver hm, hs, hn⟩
  | act i b =>
    obtain ⟨s, hs, hn⟩ := take_some h
    exact ⟨i, _, s, .act, hs, hn⟩

theorem run_nodes {tr : List (network L cmd (ι := ι)).Event} {n : Net ι σ μ}
    (h : Machine.Run tr n) : ∀ i, ∃ tr' : List M.Event, Machine.Run tr' (n.nodes i) := by
  refine Machine.Run.induct
    (P := fun _ n => ∀ i, ∃ tr' : List M.Event, Machine.Run tr' (n.nodes i)) ?_ ?_ h
  · intro n hn i
    exact ⟨[], Machine.run_nil.mpr (hn.1 i)⟩
  · intro tr e _ ih i
    obtain ⟨j, a, s, -, hs, he⟩ := event_takes e
    rw [he]
    exact Network.reached_update ih hs i

/-! ## Invariants -/

structure Kept (P : σ → Prop) (Q : (ι → σ) → μ → Prop) (n : Net ι σ μ) : Prop where
  nodes : ∀ i, P (n.nodes i)
  sent : ∀ m ∈ n.sent, Q n.nodes m

variable {P : σ → Prop} {Q : (ι → σ) → μ → Prop}

theorem kept_init (h0 : ∀ s, M.init s → P s) {n : Net ι σ μ} (h : (network L cmd).init n) :
    Kept P Q n where
  nodes i := h0 _ (h.1 i)
  sent m hm := by
    rw [h.2] at hm
    cases hm

theorem Kept.step {e : (network L cmd (ι := ι)).Event} (h : Kept P Q e.pre)
    (hs : ∀ i a s, Takes L cmd e.pre e.input i a → M.step (e.pre.nodes i) a = some (s, e.out) →
      P s ∧ (∀ m, Q e.pre.nodes m → Q (Function.update e.pre.nodes i s) m) ∧
        ∀ m ∈ L.emit e.out, Q (Function.update e.pre.nodes i s) m) : Kept P Q e.post := by
  obtain ⟨i, a, s, htakes, hstep, he⟩ := event_takes e
  obtain ⟨hP, hold, hnew⟩ := hs i a s htakes hstep
  rw [he]
  constructor
  · intro j
    by_cases hj : j = i
    · subst hj
      simpa using hP
    · show P (Function.update e.pre.nodes i s j)
      rw [Function.update_of_ne hj]
      exact h.nodes j
  · intro m hm
    rcases List.mem_append.mp hm with hm | hm
    · exact hold m (h.sent m hm)
    · exact hnew m hm

end Lossy
