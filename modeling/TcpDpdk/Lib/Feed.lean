import Mathlib.Data.List.Nodup
import Mathlib.Data.List.Pairwise
import Mathlib.Tactic.TypeStar

/-!
# Feeding a machine a stream

A machine takes one piece of its input at a time and puts out what is ready. However the
stream is cut into chunks, the machine comes to the same state and puts out the same.
-/

namespace Feed

variable {σ ι ω : Type*} (step : σ → ι → σ × List ω)

def feed : σ → List ι → σ × List ω
  | s, [] => (s, [])
  | s, i :: is =>
    let x := step s i
    let y := feed x.1 is
    (y.1, x.2 ++ y.2)

theorem feed_append (s : σ) (is js : List ι) :
    feed step s (is ++ js) = ((feed step (feed step s is).1 js).1,
      (feed step s is).2 ++ (feed step (feed step s is).1 js).2) := by
  induction is generalizing s with
  | nil => rfl
  | cons i is ih =>
    rw [List.cons_append, feed, ih, feed, List.append_assoc]

def feedChunks : σ → List (List ι) → σ × List ω
  | s, [] => (s, [])
  | s, c :: cs =>
    let x := feed step s c
    let y := feedChunks x.1 cs
    (y.1, x.2 ++ y.2)

theorem feedChunks_eq (s : σ) (cs : List (List ι)) :
    feedChunks step s cs = feed step s cs.flatten := by
  induction cs generalizing s with
  | nil => rfl
  | cons c cs ih => rw [feedChunks, ih, List.flatten_cons, feed_append]

/-! ## Terminated pieces -/

variable (p : ι → Prop) [DecidablePred p]

/-- The state is the piece that has not ended yet; what is put out includes its end. -/
def piece (cur : List ι) (i : ι) : List ι × List (List ι) :=
  if p i then ([], [cur ++ [i]]) else (cur ++ [i], [])

theorem flatten_pieces (cur is : List ι) :
    (feed (piece p) cur is).2.flatten ++ (feed (piece p) cur is).1 = cur ++ is := by
  induction is generalizing cur with
  | nil => simp [feed]
  | cons i is ih =>
    rw [feed, List.flatten_append, List.append_assoc, ih]
    by_cases h : p i
    · simp [piece, h]
    · simp [piece, h]

/-- The last piece is all there is, or began on the way. -/
theorem pending_piece (cur is : List ι) :
    (feed (piece p) cur is).1 = cur ++ is ∨ ∀ i ∈ (feed (piece p) cur is).1, i ∈ is := by
  induction is generalizing cur with
  | nil => exact Or.inl (List.append_nil cur).symm
  | cons i is ih =>
    by_cases hi : p i
    · right
      intro j hj
      rw [feed, piece, if_pos hi] at hj
      rcases ih [] with h | h
      · rw [h] at hj
        exact List.mem_cons_of_mem _ hj
      · exact List.mem_cons_of_mem _ (h j hj)
    · rw [feed, piece, if_neg hi]
      rcases ih (cur ++ [i]) with h | h
      · left
        rw [h, List.append_assoc]
        rfl
      · exact Or.inr fun j hj => List.mem_cons_of_mem _ (h j hj)

variable {p} {cur is : List ι}

theorem mem_pending {i : ι} (h : i ∈ (feed (piece p) cur is).1) : i ∈ cur ∨ i ∈ is := by
  rw [← List.mem_append, ← flatten_pieces p]
  exact List.mem_append_right _ h

/-- Where nothing comes twice, a piece is known by any of its parts. -/
theorem piece_unique (h : (cur ++ is).Nodup) {a b : List ι} (ha : a ∈ (feed (piece p) cur is).2)
    (hb : b ∈ (feed (piece p) cur is).2) {i : ι} (hia : i ∈ a) (hib : i ∈ b) : a = b := by
  rw [← flatten_pieces p] at h
  have hdisjoint := (List.nodup_flatten.mp (List.nodup_append.mp h).1).2
  have : Std.Symm (List.Disjoint (α := ι)) := ⟨fun _ _ h => List.disjoint_symm h⟩
  by_contra hne
  exact hdisjoint.forall ha hb hne hia hib

end Feed
