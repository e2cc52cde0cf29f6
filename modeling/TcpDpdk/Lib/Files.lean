import Mathlib.Data.List.Nodup
import Mathlib.Logic.Function.Basic

/-!
# Open files

The open files of a process by number, and the numbers that are watched (by an `epoll`
instance). A number in use is not given out; one that is closed is no longer watched and may
be given out at once. Some of the files stand for items of a type `ι`: `items` are those that
are watched, and `Kept` says that there are no others.
-/

structure Files (γ : Type) where
  file : Nat → Option γ
  watched : List Nat

namespace Files

variable {γ ι : Type} (fs : Files γ) (sel : γ → Option ι)

def unused (fd : Nat) : Bool := (fs.file fd).isNone

def put (fd : Nat) (f : γ) : Files γ := { fs with file := Function.update fs.file fd (some f) }

def watch (fd : Nat) : Files γ := { fs with watched := fd :: fs.watched }

def unwatch (fd : Nat) : Files γ := { fs with watched := fs.watched.erase fd }

def close (fd : Nat) : Files γ := ⟨Function.update fs.file fd none, fs.watched.erase fd⟩

def item (fd : Nat) : Option ι := (fs.file fd).bind sel

def items : List ι := fs.watched.filterMap (fs.item sel)

structure Kept : Prop where
  nodup : fs.watched.Nodup
  watched_iff : ∀ fd, fd ∈ fs.watched ↔ fs.item sel fd ≠ none
  inj : ∀ {a b i}, fs.item sel a = some i → fs.item sel b = some i → a = b

variable {fs sel} {fd x : Nat} {f : γ} {i : ι}

@[simp] theorem put_self : (fs.put fd f).file fd = some f := Function.update_self ..

theorem put_ne (h : x ≠ fd) : (fs.put fd f).file x = fs.file x := Function.update_of_ne h ..

@[simp] theorem close_self : (fs.close fd).file fd = none := Function.update_self ..

theorem close_ne (h : x ≠ fd) : (fs.close fd).file x = fs.file x := Function.update_of_ne h ..

theorem put_new (hnew : ∀ x, fs.file x ≠ some f) : (fs.put fd f).file x = some f ↔ x = fd := by
  by_cases hx : x = fd
  · subst hx
    simp
  · rw [put_ne hx]
    simp [hx, hnew x]

/-- Where a file is does not depend on the others. -/
theorem put_iff {g : γ} (h : fs.unused fd) (hg : g ≠ f) :
    (fs.put fd g).file x = some f ↔ fs.file x = some f := by
  by_cases hx : x = fd
  · subst hx
    rw [put_self, Option.isNone_iff_eq_none.mp h]
    simp [hg]
  · rw [put_ne hx]

theorem close_iff (h : fs.file fd ≠ some f) :
    (fs.close fd).file x = some f ↔ fs.file x = some f := by
  by_cases hx : x = fd
  · subst hx
    rw [close_self]
    simp [h]
  · rw [close_ne hx]

theorem item_put_self : (fs.put fd f).item sel fd = sel f := by simp [item]

theorem item_put_ne (h : x ≠ fd) : (fs.put fd f).item sel x = fs.item sel x := by
  unfold item
  rw [put_ne h]

theorem item_close_self : (fs.close fd).item sel fd = none := by simp [item]

theorem item_close_ne (h : x ≠ fd) : (fs.close fd).item sel x = fs.item sel x := by
  unfold item
  rw [close_ne h]

theorem item_unused (h : fs.unused fd) : fs.item sel fd = none := by
  unfold item
  rw [Option.isNone_iff_eq_none.mp h]
  rfl

theorem mem_items (h : fs.Kept sel) : i ∈ fs.items sel ↔ ∃ fd, fs.item sel fd = some i := by
  unfold items
  rw [List.mem_filterMap]
  constructor
  · intro ⟨fd, _, hi⟩
    exact ⟨fd, hi⟩
  · intro ⟨fd, hi⟩
    exact ⟨fd, (h.watched_iff fd).mpr (by simp [hi]), hi⟩

/-- The file of a number that was not in use, closed again. -/
theorem put_close (h : fs.unused fd) (hw : fd ∉ fs.watched) : (fs.put fd f).close fd = fs := by
  unfold put close
  have hnone : fs.file fd = none := Option.isNone_iff_eq_none.mp h
  rw [Function.update_idem, List.erase_of_not_mem hw, Function.update_eq_self_iff.mpr hnone.symm]

theorem watch_close (hw : fd ∉ fs.watched) : (fs.watch fd).close fd = fs.close fd := by
  unfold watch close
  rw [List.erase_cons_head, List.erase_of_not_mem hw]

theorem unwatch_close (h : fs.watched.Nodup) : (fs.unwatch fd).close fd = fs.close fd := by
  unfold unwatch close
  rw [List.erase_of_not_mem (h.not_mem_erase)]

namespace Kept

variable (h : fs.Kept sel)

include h

theorem not_watched (hfd : fs.item sel fd = none) : fd ∉ fs.watched := fun hw =>
  (h.watched_iff fd).mp hw hfd

/-- What stands for no item comes and goes unseen. -/
theorem put_other (hfd : fs.item sel fd = none) (hf : sel f = none) :
    (fs.put fd f).Kept sel ∧ (fs.put fd f).items sel = fs.items sel := by
  have hitem : (fs.put fd f).item sel = fs.item sel := by
    funext x
    by_cases hx : x = fd
    · subst hx
      rw [item_put_self, hf, hfd]
    · exact item_put_ne hx
  refine ⟨⟨h.nodup, ?_, ?_⟩, ?_⟩
  · rw [hitem]
    exact h.watched_iff
  · rw [hitem]
    exact h.inj
  · unfold items
    rw [hitem]
    rfl

theorem close_other (hfd : fs.item sel fd = none) :
    (fs.close fd).Kept sel ∧ (fs.close fd).items sel = fs.items sel := by
  have hitem : (fs.close fd).item sel = fs.item sel := by
    funext x
    by_cases hx : x = fd
    · subst hx
      rw [item_close_self, hfd]
    · exact item_close_ne hx
  have hw : (fs.close fd).watched = fs.watched := List.erase_of_not_mem (h.not_watched hfd)
  refine ⟨⟨?_, ?_, ?_⟩, ?_⟩
  · rw [hw]
    exact h.nodup
  · rw [hitem, hw]
    exact h.watched_iff
  · rw [hitem]
    exact h.inj
  · unfold items
    rw [hitem, hw]

theorem join (hfd : fs.unused fd) (hf : sel f = some i) (hi : i ∉ fs.items sel) :
    ((fs.put fd f).watch fd).Kept sel ∧
      ((fs.put fd f).watch fd).items sel = i :: fs.items sel := by
  have hnone : fs.item sel fd = none := item_unused hfd
  have hnew : ((fs.put fd f).watch fd).item sel fd = some i := item_put_self.trans hf
  have hold : ∀ {x}, x ≠ fd → ((fs.put fd f).watch fd).item sel x = fs.item sel x := fun hx =>
    item_put_ne hx
  have hne : ∀ {x}, fs.item sel x = some i → False := fun hx =>
    hi ((mem_items h).mpr ⟨_, hx⟩)
  have hw := h.not_watched hnone
  refine ⟨⟨List.nodup_cons.mpr ⟨hw, h.nodup⟩, fun x => ?_, fun {a b j} ha hb => ?_⟩, ?_⟩
  · show x ∈ fd :: fs.watched ↔ _
    by_cases hx : x = fd
    · subst hx
      simp [hnew]
    · rw [hold hx, ← h.watched_iff x]
      simp [hx]
  · by_cases hafd : a = fd
    · by_cases hbfd : b = fd
      · rw [hafd, hbfd]
      · rw [hafd, hnew] at ha
        cases ha
        rw [hold hbfd] at hb
        exact (hne hb).elim
    · rw [hold hafd] at ha
      by_cases hbfd : b = fd
      · rw [hbfd, hnew] at hb
        cases hb
        exact (hne ha).elim
      · rw [hold hbfd] at hb
        exact h.inj ha hb
  · show (fd :: fs.watched).filterMap (((fs.put fd f).watch fd).item sel) = i :: fs.items sel
    rw [List.filterMap_cons_some hnew]
    refine congrArg (i :: ·) (List.filterMap_congr fun x hx => hold fun he => hw (he ▸ hx))

theorem leave [BEq ι] [LawfulBEq ι] (hfd : fs.item sel fd = some i) :
    (fs.close fd).Kept sel ∧ (fs.close fd).items sel = (fs.items sel).erase i := by
  refine ⟨⟨h.nodup.erase fd, fun x => ?_, fun {a b j} ha hb => ?_⟩, ?_⟩
  · show x ∈ fs.watched.erase fd ↔ _
    rw [h.nodup.mem_erase_iff]
    by_cases hx : x = fd
    · subst hx
      simp [item_close_self]
    · rw [item_close_ne hx, ← h.watched_iff x]
      simp [hx]
  · by_cases hafd : a = fd
    · rw [hafd, item_close_self] at ha
      cases ha
    · by_cases hbfd : b = fd
      · rw [hbfd, item_close_self] at hb
        cases hb
      · rw [item_close_ne hafd] at ha
        rw [item_close_ne hbfd] at hb
        exact h.inj ha hb
  · have hcongr : (fs.watched.erase fd).filterMap ((fs.close fd).item sel) =
        (fs.watched.erase fd).filterMap (fs.item sel) := by
      refine List.filterMap_congr fun x hx => item_close_ne fun he => ?_
      exact h.nodup.not_mem_erase (he ▸ hx)
    have herase : ∀ l : List Nat, (l.erase fd).filterMap (fs.item sel) =
        (l.filterMap (fs.item sel)).erase i := by
      intro l
      induction l with
      | nil => rfl
      | cons x l ih =>
        by_cases hx : x = fd
        · subst hx
          rw [List.erase_cons_head, List.filterMap_cons_some hfd, List.erase_cons_head]
        · rw [List.erase_cons_tail (by simpa using hx)]
          cases hj : fs.item sel x with
          | none => rw [List.filterMap_cons_none hj, List.filterMap_cons_none hj, ih]
          | some j =>
            have hij : j ≠ i := by
              rintro rfl
              exact hx (h.inj hj hfd)
            rw [List.filterMap_cons_some hj, List.filterMap_cons_some hj, ih,
              List.erase_cons_tail (by simpa using hij)]
    exact hcongr.trans (herase _)

end Kept

end Files
