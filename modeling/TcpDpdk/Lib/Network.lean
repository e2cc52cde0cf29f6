import Mathlib.Algebra.GroupWithZero.Nat
import Mathlib.Algebra.BigOperators.Group.Finset.Basic
import Mathlib.Data.Set.Finite.Lattice
import Mathlib.Data.Fintype.BigOperators
import Mathlib.Order.WellFounded
import TcpDpdk.Lib.Machine

/-!
# Machines that answer each other's messages

Finitely many machines of one kind and the messages in flight between them. A
message is delivered at most once, in any order, to any machine; a machine may
besides take a bounded number of inputs from outside. `finite_iff` is the rule to
show that such an exchange ends: give every machine state a load and every message
a weight so that a delivery, except for the bad ones, makes the total smaller.
-/

namespace Network

variable {ι σ α ο ε μ : Type}

/-- How a message becomes an input of the machine, and what messages an output is. -/
structure Link (M : Machine σ α ο) (ε μ : Type) where
  recv : ε → μ → α
  emit : ο → List μ

structure Net (ι σ μ : Type) where
  nodes : ι → σ
  flight : List μ
  /-- how many inputs may still come from outside -/
  budget : Nat

inductive Label (ι α ε μ : Type) where
  | deliver (i : ι) (env : ε) (m : μ)
  | act (i : ι) (a : α)

variable [DecidableEq ι] {M : Machine σ α ο} (L : Link M ε μ)

inductive Fires : Net ι σ μ → Label ι α ε μ → Net ι σ μ → Prop
  | deliver {nodes flight budget i env m l₁ l₂ s out} : flight = l₁ ++ m :: l₂ →
      M.step (nodes i) (L.recv env m) = some (s, out) →
      Fires ⟨nodes, flight, budget⟩ (.deliver i env m)
        ⟨Function.update nodes i s, l₁ ++ l₂ ++ L.emit out, budget⟩
  | act {nodes flight budget i a s out} : M.step (nodes i) a = some (s, out) →
      Fires ⟨nodes, flight, budget + 1⟩ (.act i a)
        ⟨Function.update nodes i s, flight ++ L.emit out, budget⟩

def Reached (M : Machine σ α ο) (n : Net ι σ μ) : Prop :=
  ∀ i, ∃ tr : List M.Event, Machine.Run tr (n.nodes i)

variable {L}

theorem reached_update {nodes : ι → σ} (h : ∀ i, ∃ tr : List M.Event, Machine.Run tr (nodes i))
    {i : ι} {a : α} {s : σ} {out : ο} (hs : M.step (nodes i) a = some (s, out)) (j : ι) :
    ∃ tr : List M.Event, Machine.Run tr (Function.update nodes i s j) := by
  by_cases hj : j = i
  · subst hj
    obtain ⟨tr, hr⟩ := h j
    rw [Function.update_self]
    exact ⟨tr ++ [⟨nodes j, a, s, out, hs⟩], Machine.run_snoc.mpr ⟨hr, rfl⟩⟩
  · rw [Function.update_of_ne hj]
    exact h j

theorem Fires.reached {n n' : Net ι σ μ} {l : Label ι α ε μ} (h : Fires L n l n')
    (hr : Reached M n) : Reached M n' := by
  cases h with
  | deliver _ hs => exact reached_update hr hs
  | act hs => exact reached_update hr hs

/-! ## Load and weight -/

section
variable [Fintype ι] (load : σ → Nat) (weight : μ → Nat)

def Net.total (n : Net ι σ μ) : Nat := ∑ i, load (n.nodes i) + (n.flight.map weight).sum

variable {load weight}

theorem sum_update (load : ι → σ → Nat) (nodes : ι → σ) (i : ι) (s : σ) :
    ∑ j, load j (Function.update nodes i s j) + load i (nodes i) = ∑ j, load j (nodes j) + load i s := by
  have hs := Finset.sum_erase_add Finset.univ (fun j => load j (nodes j)) (Finset.mem_univ i)
  have hu := Finset.sum_erase_add Finset.univ (fun j => load j (Function.update nodes i s j))
    (Finset.mem_univ i)
  have he : ∑ j ∈ Finset.univ.erase i, load j (Function.update nodes i s j) =
      ∑ j ∈ Finset.univ.erase i, load j (nodes j) :=
    Finset.sum_congr rfl fun j hj => by rw [Function.update_of_ne (Finset.ne_of_mem_erase hj)]
  simp only [Function.update_self] at hu
  omega

theorem deliver_total {nodes : ι → σ} {l₁ l₂ : List μ} {m : μ} {b b' : Nat} {i : ι} {s : σ} {out : ο}
    (h : load s + ((L.emit out).map weight).sum < load (nodes i) + weight m) :
    Net.total load weight ⟨Function.update nodes i s, l₁ ++ l₂ ++ L.emit out, b⟩ <
      Net.total load weight ⟨nodes, l₁ ++ m :: l₂, b'⟩ := by
  have hu := sum_update (fun _ => load) nodes i s
  unfold Net.total
  simp only [List.map_append, List.map_cons, List.sum_append, List.sum_cons]
  omega

end

/-! ## Runs of the network -/

/-- The states of a network in the order of its steps, and the step taken in each:
those up to the first that is not one. -/
structure Exchange (ι σ α ε μ : Type) where
  net : ℕ → Net ι σ μ
  label : ℕ → Label ι α ε μ

namespace Exchange

variable (L) in
def Takes (x : Exchange ι σ α ε μ) (n : ℕ) : Prop :=
  ∀ m ≤ n, Fires L (x.net m) (x.label m) (x.net (m + 1))

def IsBad (Bad : σ → ε → μ → Prop) (x : Exchange ι σ α ε μ) (n : ℕ) : Prop :=
  match x.label n with
  | .deliver i env m => Bad ((x.net n).nodes i) env m
  | .act _ _ => False

theorem takes_reached {x : Exchange ι σ α ε μ} (h0 : Reached M (x.net 0))
    (ht : ∀ n, Fires L (x.net n) (x.label n) (x.net (n + 1))) : ∀ n, Reached M (x.net n)
  | 0 => h0
  | n + 1 => (ht n).reached (takes_reached h0 ht n)

theorem takes_all {x : Exchange ι σ α ε μ} (hinf : ¬{n | Takes L x n}.Finite) (n : ℕ) :
    Takes L x n := by
  by_contra hn
  refine hinf ((Set.finite_lt_nat n).subset fun m hm => ?_)
  by_contra hge
  exact hn fun k hk => hm k (hk.trans (not_lt.mp hge))

/-- An exchange ends exactly if it takes only finitely many bad deliveries, where
every other delivery in a state that can be reached makes the total smaller. -/
theorem finite_iff [Fintype ι] {load : σ → Nat} {weight : μ → Nat} {Bad : σ → ε → μ → Prop}
    (hdec : ∀ (tr : List M.Event) s env m s' out, Machine.Run tr s → ¬Bad s env m →
      M.step s (L.recv env m) = some (s', out) →
      load s' + ((L.emit out).map weight).sum < load s + weight m)
    {x : Exchange ι σ α ε μ} (h0 : Reached M (x.net 0)) :
    {n | Takes L x n}.Finite ↔ {n | Takes L x n ∧ x.IsBad Bad n}.Finite := by
  constructor
  · intro hfin
    exact hfin.subset fun n hn => hn.1
  · intro hfin
    by_contra hinf
    have hall := takes_all hinf
    have fires : ∀ n, Fires L (x.net n) (x.label n) (x.net (n + 1)) := fun n => hall n n le_rfl
    -- after the last bad delivery each step uses up budget or makes the total smaller
    obtain ⟨N, hN⟩ := hfin.bddAbove
    let f : ℕ → ℕ × ℕ := fun n => ((x.net (N + 1 + n)).budget, (x.net (N + 1 + n)).total load weight)
    obtain ⟨n, hn⟩ := WellFounded.not_rel_apply_succ (r := Prod.Lex (· < ·) (· < ·)) f
    apply hn
    have hfire := fires (N + 1 + n)
    have hreach := takes_reached h0 fires (N + 1 + n)
    have hgood : ¬x.IsBad Bad (N + 1 + n) := fun hbad => by
      have := hN ⟨hall _, hbad⟩
      omega
    unfold IsBad at hgood
    show Prod.Lex _ _ ((x.net (N + 1 + n + 1)).budget, (x.net (N + 1 + n + 1)).total load weight)
      ((x.net (N + 1 + n)).budget, (x.net (N + 1 + n)).total load weight)
    generalize x.net (N + 1 + n) = a at hfire hreach hgood ⊢
    generalize x.net (N + 1 + n + 1) = b at hfire ⊢
    generalize x.label (N + 1 + n) = l at hfire hgood
    cases hfire with
    | deliver hfl hs =>
      subst hfl
      obtain ⟨tr, hr⟩ := hreach _
      exact Prod.Lex.right _ (deliver_total (hdec tr _ _ _ _ _ hr hgood hs))
    | act hs => exact Prod.Lex.left _ _ (Nat.lt_succ_self _)

variable (L) in
def Endless (n : Net ι σ μ) : Prop :=
  ∃ x : Exchange ι σ α ε μ, x.net 0 = n ∧ ∀ k, Takes L x k

theorem endless_of_closed {J : Net ι σ μ → Prop} (hJ : ∀ n, J n → ∃ l n', Fires L n l n' ∧ J n')
    {n : Net ι σ μ} (h : J n) : Endless L n := by
  choose l next hfires hnext using hJ
  let states : ℕ → { n // J n } := Nat.rec ⟨n, h⟩ fun _ a => ⟨next a.1 a.2, hnext a.1 a.2⟩
  refine ⟨⟨fun k => (states k).1, fun k => l _ (states k).2⟩, rfl, fun k m _ => ?_⟩
  exact hfires _ (states m).2

theorem Endless.cons {n n' : Net ι σ μ} {l : Label ι α ε μ} (h : Fires L n l n')
    (hn : Endless L n') : Endless L n := by
  obtain ⟨x, rfl, hx⟩ := hn
  let y : Exchange ι σ α ε μ := {
    net := fun
      | 0 => n
      | k + 1 => x.net k
    label := fun
      | 0 => l
      | k + 1 => x.label k }
  refine ⟨y, rfl, fun k m _ => ?_⟩
  cases m with
  | zero => exact h
  | succ m => exact hx m m le_rfl

theorem Endless.acts {i : ι} {s : σ} {budget : Nat} : ∀ {tr : List M.Event} {nodes : ι → σ}
    {flight : List μ}, Machine.Path (nodes i) tr s →
    Endless L ⟨Function.update nodes i s, flight ++ tr.flatMap (fun e => L.emit e.out), budget⟩ →
    Endless L ⟨nodes, flight, budget + tr.length⟩
  | [], nodes, flight, hp, hn => by
    obtain rfl : nodes i = s := hp
    rwa [Function.update_eq_self, List.flatMap_nil, List.append_nil] at hn
  | e :: tr, nodes, flight, ⟨hpre, hp⟩, hn => by
    have hstep : M.step (nodes i) e.input = some (e.post, e.out) := hpre ▸ e.fired
    refine Endless.cons (Fires.act hstep) (Endless.acts (i := i) (s := s) ?_ ?_)
    · rw [Function.update_self]
      exact hp
    · rw [Function.update_idem, List.append_assoc]
      exact hn

end Exchange

end Network
