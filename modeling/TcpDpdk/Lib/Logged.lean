import Mathlib.Logic.Basic
import Mathlib.Tactic.TypeStar

/-!
# Computations with a log

A value together with what was done on the way to it, in order. `All P` is the triple of
such a computation: every entry of the log satisfies `P`. A computation that may break off
is one in `OptionT`: what it had logged before is still there.
-/

/-- A value, and the accesses made to get it. -/
structure Logged (ε β : Type*) where
  value : β
  log : List ε

namespace Logged

instance {ε : Type*} : Monad (Logged ε) where
  pure v := ⟨v, []⟩
  bind m f := ⟨(f m.value).value, m.log ++ (f m.value).log⟩

variable {ε : Type*} {β γ : Type _}

def tell (e : ε) (v : β) : Logged ε β := ⟨v, [e]⟩

def All (P : ε → Prop) (m : Logged ε β) : Prop := ∀ e ∈ m.log, P e

@[simp] theorem value_pure (v : β) : (pure v : Logged ε β).value = v := rfl

@[simp] theorem value_bind (m : Logged ε β) (f : β → Logged ε γ) :
    (m >>= f).value = (f m.value).value := rfl

@[simp] theorem value_tell (e : ε) (v : β) : (tell e v).value = v := rfl

@[simp] theorem log_pure (v : β) : (pure v : Logged ε β).log = [] := rfl

@[simp] theorem log_bind (m : Logged ε β) (f : β → Logged ε γ) :
    (m >>= f).log = m.log ++ (f m.value).log := rfl

@[simp] theorem log_tell (e : ε) (v : β) : (tell e v).log = [e] := rfl

variable {P : ε → Prop}

@[simp] theorem all_pure (v : β) : (pure v : Logged ε β).All P := fun _ h => nomatch h

@[simp] theorem all_tell (e : ε) (v : β) : (tell e v).All P ↔ P e := List.forall_mem_singleton

@[simp] theorem all_bind (m : Logged ε β) (f : β → Logged ε γ) :
    (m >>= f).All P ↔ m.All P ∧ (f m.value).All P := List.forall_mem_append

theorem all_ite {p : Prop} [Decidable p] {m k : Logged ε β} (hm : p → m.All P) (hk : ¬p → k.All P) :
    (if p then m else k).All P := by
  by_cases h : p
  · rw [if_pos h]
    exact hm h
  · rw [if_neg h]
    exact hk h

end Logged

namespace OptionT
variable {ε : Type*} {β γ : Type _} {P : ε → Prop}

def All (P : ε → Prop) (m : OptionT (Logged ε) β) : Prop := m.run.All P

@[simp] theorem value_pure (v : β) : (pure v : OptionT (Logged ε) β).run.value = some v := rfl

@[simp] theorem value_bind (m : OptionT (Logged ε) β) (f : β → OptionT (Logged ε) γ) :
    (m >>= f).run.value = m.run.value.bind fun x => (f x).run.value := by
  rw [run_bind, Option.elimM, Logged.value_bind]
  cases m.run.value with
  | none => rfl
  | some x => rfl

@[simp] theorem all_pure (v : β) : (pure v : OptionT (Logged ε) β).All P := Logged.all_pure _

@[simp] theorem all_bind (m : OptionT (Logged ε) β) (f : β → OptionT (Logged ε) γ) :
    (m >>= f).All P ↔ m.All P ∧ ∀ x, m.run.value = some x → (f x).All P := by
  unfold All
  rw [run_bind, Option.elimM, Logged.all_bind]
  refine and_congr_right fun _ => ?_
  cases m.run.value with
  | none => exact iff_of_true (Logged.all_pure _) fun _ h => nomatch h
  | some x => exact ⟨fun h _ he => Option.some.inj he ▸ h, fun h => h x rfl⟩

theorem all_ite {p : Prop} [Decidable p] {m k : OptionT (Logged ε) β} (hm : p → m.All P)
    (hk : ¬p → k.All P) : (if p then m else k).All P := by
  by_cases h : p
  · rw [if_pos h]
    exact hm h
  · rw [if_neg h]
    exact hk h

end OptionT
