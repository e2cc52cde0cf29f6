import Mathlib.Algebra.GroupWithZero.Nat
import Mathlib.Data.List.AList
import Mathlib.Data.Finset.Card
import Mathlib.Algebra.BigOperators.Group.List.Basic

/-!
# Finite stores

`Heap α` is a memory of objects found by address: `alloc` hands out an address
that has never been used, `free` takes the object away. `Table κ α n` is a map of
at most `n` entries: adding a new key to a full one fails and changes nothing.
Both carry what keeps them well formed.
-/

namespace Store

theorem sum_kerase {κ α : Type} [DecidableEq κ] (f : α → Nat) {k : κ} {a : α}
    (l : List (Sigma fun _ : κ => α)) (h : l.dlookup k = some a) :
    ((l.kerase k).map fun e => f e.2).sum + f a = (l.map fun e => f e.2).sum := by
  have hk : k ∈ l.keys := List.dlookup_isSome.mp (by rw [h]; rfl)
  obtain ⟨b, l₁, l₂, hn, rfl, he⟩ := List.exists_of_kerase hk
  have hb : b = a := by
    rw [List.dlookup_append, List.dlookup_eq_none.mpr hn, List.dlookup_cons_eq] at h
    exact Option.some.inj h
  subst hb
  rw [he]
  simp only [List.map_append, List.map_cons, List.sum_append, List.sum_cons]
  omega

/-! ## Heaps -/

structure Heap (α : Type) where
  objs : AList fun _ : Nat => α
  next : Nat
  fresh : ∀ p ∈ objs, p < next

namespace Heap

variable {α : Type}

def empty : Heap α := ⟨∅, 0, fun p h => absurd h (AList.notMem_empty p)⟩

def read (h : Heap α) (p : Nat) : Option α := h.objs.lookup p

def alloc (h : Heap α) (a : α) : Heap α where
  objs := h.objs.insert h.next a
  next := h.next + 1
  fresh p hp := by
    rcases (AList.mem_insert _).mp hp with rfl | hp
    · exact Nat.lt_succ_self _
    · exact Nat.lt_succ_of_lt (h.fresh p hp)

def write (h : Heap α) (p : Nat) (a : α) : Heap α :=
  if hm : p ∈ h.objs then
    { h with
      objs := h.objs.insert p a
      fresh := fun x hx => by
        rcases (AList.mem_insert _).mp hx with rfl | hx
        · exact h.fresh x hm
        · exact h.fresh x hx }
  else h

def free (h : Heap α) (p : Nat) : Heap α where
  objs := h.objs.erase p
  next := h.next
  fresh x hx := h.fresh x (AList.mem_erase.mp hx).2

theorem mem_of_read {h : Heap α} {p : Nat} {a : α} (hr : h.read p = some a) : p ∈ h.objs :=
  AList.lookup_isSome.mp (by rw [show h.objs.lookup p = some a from hr]; rfl)

theorem lt_of_read {h : Heap α} {p : Nat} {a : α} (hr : h.read p = some a) : p < h.next :=
  h.fresh p (mem_of_read hr)

@[simp] theorem read_alloc (h : Heap α) (a : α) : (h.alloc a).read h.next = some a :=
  AList.lookup_insert _

theorem read_alloc_ne {h : Heap α} {a : α} {p : Nat} (hp : p ≠ h.next) :
    (h.alloc a).read p = h.read p := AList.lookup_insert_ne hp

theorem read_alloc_of_read {h : Heap α} {a b : α} {p : Nat} (hr : h.read p = some b) :
    (h.alloc a).read p = some b := by
  rw [read_alloc_ne (Nat.ne_of_lt (lt_of_read hr)), hr]

theorem read_write {h : Heap α} {p : Nat} {a b : α} (hr : h.read p = some b) :
    (h.write p a).read p = some a := by
  unfold write
  rw [dif_pos (mem_of_read hr)]
  exact AList.lookup_insert _

theorem read_write_ne {h : Heap α} {p x : Nat} {a : α} (hx : x ≠ p) :
    (h.write p a).read x = h.read x := by
  unfold write; split
  · exact AList.lookup_insert_ne hx
  · rfl

theorem read_free_ne {h : Heap α} {p x : Nat} (hx : x ≠ p) : (h.free p).read x = h.read x :=
  AList.lookup_erase_ne hx

@[simp] theorem mem_alloc {h : Heap α} {a : α} {x : Nat} :
    x ∈ (h.alloc a).objs ↔ x = h.next ∨ x ∈ h.objs := AList.mem_insert _

@[simp] theorem mem_free {h : Heap α} {p x : Nat} : x ∈ (h.free p).objs ↔ x ≠ p ∧ x ∈ h.objs :=
  AList.mem_erase

@[simp] theorem mem_write {h : Heap α} {p : Nat} {a : α} {x : Nat} :
    x ∈ (h.write p a).objs ↔ x ∈ h.objs := by
  unfold write; split
  · rename_i hp
    rw [AList.mem_insert]
    exact ⟨fun hx => hx.elim (fun he => he ▸ hp) id, Or.inr⟩
  · rfl

@[simp] theorem next_write {h : Heap α} {p : Nat} {a : α} : (h.write p a).next = h.next := by
  unfold write; split <;> rfl

theorem write_alloc (h : Heap α) (a b : α) : (h.alloc a).write h.next b = h.alloc b := by
  unfold write
  rw [dif_pos (mem_alloc.mpr (Or.inl rfl))]
  unfold alloc
  simp only [AList.insert_insert]

theorem next_notMem (h : Heap α) : h.next ∉ h.objs := fun hm => Nat.lt_irrefl _ (h.fresh _ hm)

theorem read_free (h : Heap α) (p : Nat) : (h.free p).read p = none := AList.lookup_erase p h.objs

/-! ### Heaps that look alike -/

/-- The same addresses are in use, and `f` sees the same of the objects there. -/
structure Alike {β : Type} (f : α → β) (h h' : Heap α) : Prop where
  next : h.next = h'.next
  read : ∀ p, (h.read p).map f = (h'.read p).map f

section
variable {β : Type} {f : α → β} {h h' : Heap α} {a a' : α}

theorem Alike.alloc (ha : h.Alike f h') (hf : f a = f a') : (h.alloc a).Alike f (h'.alloc a') := by
  refine ⟨congrArg (· + 1) ha.next, fun p => ?_⟩
  by_cases hp : p = h.next
  · subst hp
    rw [read_alloc, ha.next, read_alloc]
    exact congrArg some hf
  · rw [read_alloc_ne hp, read_alloc_ne (ha.next ▸ hp)]
    exact ha.read p

theorem Alike.write (ha : h.Alike f h') {p : Nat} {b b' : α} (hr : h.read p = some b)
    (hr' : h'.read p = some b') (hf : f a = f a') : (h.write p a).Alike f (h'.write p a') := by
  refine ⟨by rw [next_write, next_write, ha.next], fun x => ?_⟩
  by_cases hx : x = p
  · subst hx
    rw [read_write hr, read_write hr']
    exact congrArg some hf
  · rw [read_write_ne hx, read_write_ne hx]
    exact ha.read x

theorem Alike.free (ha : h.Alike f h') (p : Nat) : (h.free p).Alike f (h'.free p) := by
  refine ⟨ha.next, fun x => ?_⟩
  by_cases hx : x = p
  · subst hx
    rw [read_free, read_free]
  · rw [read_free_ne hx, read_free_ne hx]
    exact ha.read x

end

/-! ### The sum of a weight over a heap -/

def sum (f : α → Nat) (h : Heap α) : Nat := (h.objs.entries.map fun e => f e.2).sum

theorem sum_free {f : α → Nat} {h : Heap α} {p : Nat} {a : α} (hr : h.read p = some a) :
    (h.free p).sum f + f a = h.sum f := sum_kerase f h.objs.entries hr

theorem sum_write {f : α → Nat} {h : Heap α} {p : Nat} {a b : α} (hr : h.read p = some a) :
    (h.write p b).sum f + f a = h.sum f + f b := by
  have e := sum_kerase f h.objs.entries hr
  unfold write sum
  rw [dif_pos (mem_of_read hr), AList.entries_insert, List.map_cons, List.sum_cons]
  show f b + _ + f a = _
  omega

theorem sum_alloc {f : α → Nat} {h : Heap α} {a : α} : (h.alloc a).sum f = h.sum f + f a := by
  unfold alloc sum
  rw [AList.entries_insert_of_notMem h.next_notMem, List.map_cons, List.sum_cons, Nat.add_comm]

end Heap

/-! ## Tables -/

structure Table (κ α : Type) [DecidableEq κ] (n : Nat) where
  map : AList fun _ : κ => α
  bound : map.entries.length ≤ n

namespace Table

variable {κ α : Type} [DecidableEq κ] {n : Nat}

def empty : Table κ α n := ⟨∅, Nat.zero_le _⟩

def lookup (t : Table κ α n) (k : κ) : Option α := t.map.lookup k

/-- A key finds a place if it has one already or the table is not full. -/
def Room (t : Table κ α n) (k : κ) : Prop := k ∈ t.map ∨ t.map.entries.length < n

instance (t : Table κ α n) (k : κ) : Decidable (t.Room k) := inferInstanceAs (Decidable (_ ∨ _))

theorem length_insert (m : AList fun _ : κ => α) (k : κ) (a : α) (h : k ∈ m) :
    (m.insert k a).entries.length = m.entries.length := by
  rw [AList.entries_insert]
  obtain ⟨b, l₁, l₂, -, hl, he⟩ := List.exists_of_kerase (AList.mem_keys.mp h)
  rw [he, hl]
  simp only [List.length_cons, List.length_append]
  omega

def add (t : Table κ α n) (k : κ) (a : α) : Table κ α n :=
  if h : t.Room k then
    ⟨t.map.insert k a, by
      by_cases hk : k ∈ t.map
      · rw [length_insert _ _ _ hk]; exact t.bound
      · rw [AList.entries_insert_of_notMem hk]; exact h.resolve_left hk⟩
  else t

def del (t : Table κ α n) (k : κ) : Table κ α n :=
  ⟨t.map.erase k, Nat.le_trans (List.kerase_sublist k t.map.entries).length_le t.bound⟩

theorem length_add_le (t : Table κ α n) (k : κ) (a : α) :
    (t.add k a).map.entries.length ≤ t.map.entries.length + 1 := by
  unfold add
  split
  · by_cases hk : k ∈ t.map
    · rw [length_insert _ _ _ hk]
      exact Nat.le_succ _
    · rw [AList.entries_insert_of_notMem hk]
      exact Nat.le_refl _
  · exact Nat.le_succ _

theorem length_del_le (t : Table κ α n) (k : κ) :
    (t.del k).map.entries.length ≤ t.map.entries.length :=
  (List.kerase_sublist k t.map.entries).length_le

theorem lookup_add {t : Table κ α n} {k : κ} {a : α} (h : t.Room k) :
    (t.add k a).lookup k = some a := by
  unfold add; rw [dif_pos h]; exact AList.lookup_insert _

theorem add_full {t : Table κ α n} {k : κ} {a : α} (h : ¬ t.Room k) : t.add k a = t := dif_neg h

theorem lookup_add_ne {t : Table κ α n} {k x : κ} {a : α} (hx : x ≠ k) :
    (t.add k a).lookup x = t.lookup x := by
  unfold add; split
  · exact AList.lookup_insert_ne hx
  · rfl

/-- What is found after an addition was there before or is what was added. -/
theorem lookup_of_add {t : Table κ α n} {k x : κ} {a b : α} (h : (t.add k a).lookup x = some b) :
    t.lookup x = some b ∨ x = k ∧ b = a := by
  by_cases hroom : t.Room k
  · by_cases hx : x = k
    · subst hx
      rw [lookup_add hroom] at h
      exact Or.inr ⟨rfl, (Option.some.inj h).symm⟩
    · rw [lookup_add_ne hx] at h
      exact Or.inl h
  · rw [add_full hroom] at h
    exact Or.inl h

@[simp] theorem lookup_del (t : Table κ α n) (k : κ) : (t.del k).lookup k = none :=
  AList.lookup_erase k t.map

theorem lookup_del_ne {t : Table κ α n} {k x : κ} (hx : x ≠ k) : (t.del k).lookup x = t.lookup x :=
  AList.lookup_erase_ne hx

theorem lookup_of_del {t : Table κ α n} {k x : κ} {a : α} (h : (t.del k).lookup x = some a) :
    x ≠ k ∧ t.lookup x = some a := by
  have hx : x ≠ k := by rintro rfl; simp at h
  exact ⟨hx, by rwa [lookup_del_ne hx] at h⟩

end Table

end Store
