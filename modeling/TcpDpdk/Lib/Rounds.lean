import Mathlib.Algebra.GroupWithZero.Nat
import TcpDpdk.Lib.Machine

/-!
# Winding down in rounds

Several actors move a machine, each by the inputs that are its own, and a number says how
much is left: no step makes it larger by more than the step adds. `Winds` says that until
it is done someone is due: an actor whose next step makes the number smaller than that,
whatever the others do before. So it is done after as many rounds in which everyone has a
turn as there is to do with all that is added, `Winds.ends`.
-/

namespace Rounds

variable {σ ι ο α : Type} {M : Machine σ ι ο} {actor : ι → Option α} {P Done : σ → Prop}
  {left : σ → Nat} {added : σ → ι → Nat} {Due : σ → α → Prop}

structure Winds (M : Machine σ ι ο) (actor : ι → Option α) (P Done : σ → Prop) (left : σ → Nat)
    (added : σ → ι → Nat) (Due : σ → α → Prop) : Prop where
  keeps : ∀ e : M.Event, P e.pre → P e.post
  stays : ∀ e : M.Event, Done e.pre → Done e.post
  le : ∀ e : M.Event, P e.pre → left e.post ≤ left e.pre + added e.pre e.input
  zero : ∀ {s}, P s → left s = 0 → Done s
  someone : ∀ {s}, P s → ¬Done s → ∃ a, Due s a
  lowers : ∀ {e : M.Event} {a}, P e.pre → actor e.input = some a → Due e.pre a →
    left e.post < left e.pre + added e.pre e.input
  waits : ∀ {e : M.Event} {a}, P e.pre → actor e.input ≠ some a → Due e.pre a → Due e.post a

/-- Everyone has a turn. -/
def Full (actor : ι → Option α) (tr : List M.Event) : Prop := ∀ a, ∃ e ∈ tr, actor e.input = some a

theorem full_of_inputs {iss : List (List ι)} {tr : List M.Event} (h : tr.map (·.input) = iss.flatten)
    (hfull : ∀ is ∈ iss, ∀ a, ∃ i ∈ is, actor i = some a) : ∃ rounds : List (List M.Event),
      tr = rounds.flatten ∧ rounds.length = iss.length ∧ ∀ r ∈ rounds, Full actor r := by
  induction iss generalizing tr with
  | nil => exact ⟨[], List.map_eq_nil_iff.mp h, rfl, fun _ h => nomatch h⟩
  | cons is iss ih =>
    rw [List.flatten_cons] at h
    obtain ⟨r, tr', rfl, hr, hrest⟩ := List.map_eq_append_iff.mp h
    obtain ⟨his, hfull⟩ := List.forall_mem_cons.mp hfull
    obtain ⟨rounds, rfl, hlen, hrounds⟩ := ih hrest hfull
    refine ⟨r :: rounds, rfl, by rw [List.length_cons, List.length_cons, hlen],
      List.forall_mem_cons.mpr ⟨fun a => ?_, hrounds⟩⟩
    obtain ⟨i, hi, ha⟩ := his a
    rw [← hr] at hi
    obtain ⟨e, he, rfl⟩ := List.mem_map.mp hi
    exact ⟨e, he, ha⟩

def allAdded (added : σ → ι → Nat) (tr : List M.Event) : Nat :=
  (tr.map fun e => added e.pre e.input).sum

theorem allAdded_cons (e : M.Event) (tr : List M.Event) :
    allAdded added (e :: tr) = added e.pre e.input + allAdded added tr := List.sum_cons

theorem allAdded_append (tr₁ tr₂ : List M.Event) :
    allAdded added (tr₁ ++ tr₂) = allAdded added tr₁ + allAdded added tr₂ := by
  unfold allAdded
  rw [List.map_append, List.sum_append]

namespace Winds

variable (hW : Winds M actor P Done left added Due)
include hW

theorem path {tr : List M.Event} {s t : σ} (hp : Machine.Path s tr t) (hs : P s) :
    P t ∧ left t ≤ left s + allAdded added tr := by
  induction tr generalizing s with
  | nil =>
    cases hp
    exact ⟨hs, Nat.le_add_right ..⟩
  | cons e tr ih =>
    obtain ⟨rfl, hp⟩ := hp
    obtain ⟨ht, hle⟩ := ih hp (hW.keeps e hs)
    have := hW.le e hs
    rw [allAdded_cons]
    exact ⟨ht, by omega⟩

theorem done {tr : List M.Event} {s t : σ} (hp : Machine.Path s tr t) (hs : Done s) : Done t :=
  Machine.path_keeps (R := fun _ => True) (fun e _ => hW.stays e) hp (fun _ _ => trivial) hs

theorem due_lowers {a : α} {tr : List M.Event} {s t : σ} (hp : Machine.Path s tr t) (hs : P s)
    (hdue : Due s a) (hturn : ∃ e ∈ tr, actor e.input = some a) :
    left t < left s + allAdded added tr := by
  induction tr generalizing s with
  | nil =>
    obtain ⟨e, he, -⟩ := hturn
    cases he
  | cons e tr ih =>
    obtain ⟨rfl, hp⟩ := hp
    rw [allAdded_cons]
    by_cases ha : actor e.input = some a
    · have hlt := hW.lowers hs ha hdue
      have hle := (hW.path hp (hW.keeps e hs)).2
      omega
    · obtain ⟨x, hx, hxa⟩ := hturn
      rcases List.mem_cons.mp hx with rfl | hx
      · exact absurd hxa ha
      · have hlt := ih hp (hW.keeps e hs) (hW.waits hs ha hdue) ⟨x, hx, hxa⟩
        have hle := hW.le e hs
        omega

theorem ends {rounds : List (List M.Event)} {s t : σ} (hp : Machine.Path s rounds.flatten t)
    (hs : P s) (hfull : ∀ r ∈ rounds, Full actor r)
    (hle : left s + allAdded added rounds.flatten ≤ rounds.length) : Done t := by
  induction rounds generalizing s with
  | nil =>
    cases hp
    exact hW.zero hs (Nat.le_zero.mp (Nat.le_trans (Nat.le_add_right ..) hle))
  | cons r rounds ih =>
    rw [List.flatten_cons] at hp hle
    obtain ⟨u, hr, hp⟩ := Machine.path_append.mp hp
    obtain ⟨hr0, hfull⟩ := List.forall_mem_cons.mp hfull
    by_cases hdone : Done s
    · exact hW.done hp (hW.done hr hdone)
    · obtain ⟨a, ha⟩ := hW.someone hs hdone
      have hlt := hW.due_lowers hr hs ha (hr0 a)
      rw [allAdded_append, List.length_cons] at hle
      exact ih hp (hW.path hr hs).1 hfull (by omega)

end Winds

end Rounds
