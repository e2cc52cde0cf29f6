import Mathlib.Data.Option.Basic
import TcpDpdk.Lib.Machine

/-!
# Machines made of cells

A machine whose state has a cell for each key, and an input a key: a step does to the
cell of its key what a smaller machine does to its whole state, and nothing to any
other. Its runs are runs of the smaller machine, one for each key, put one into the
other: `Splits.path` takes them apart, `Splits.replay_iff` puts them together.
-/

namespace Cells

variable {σ α ι ο κ : Type} {M : Machine σ ι ο} {N : Machine α ι ο}
  {cell : σ → κ → α} {key : ι → κ} {Inv : σ → Prop} {Fits : σ → ι → Prop}

/-- `Fits` is what a cell needs beside itself, such as a place to be put in. -/
structure Splits (M : Machine σ ι ο) (N : Machine α ι ο) (cell : σ → κ → α) (key : ι → κ)
    (Inv : σ → Prop) (Fits : σ → ι → Prop) : Prop where
  inv : ∀ {s i s' out}, Inv s → M.step s i = some (s', out) → Inv s'
  others : ∀ {s i s' out}, Inv s → M.step s i = some (s', out) →
    ∀ q, q ≠ key i → cell s' q = cell s q
  own : ∀ {s i}, Inv s → Fits s i →
    Option.Rel (fun x y => cell x.1 (key i) = y.1 ∧ x.2 = y.2) (M.step s i)
      (N.step (cell s (key i)) i)

variable [DecidableEq κ]

def share (key : ι → κ) (q : κ) (is : List ι) : List ι := is.filter fun i => key i = q

/-- What happens in a history at the key `q`: the inputs and the outputs. -/
def happens (key : ι → κ) (q : κ) (tr : List M.Event) : List (ι × ο) :=
  tr.filterMap fun e => if key e.input = q then some e.io else none

theorem share_cons (q : κ) (i : ι) (is : List ι) :
    share key q (i :: is) = if key i = q then i :: share key q is else share key q is := by
  unfold share
  by_cases h : key i = q <;> simp [h]

theorem happens_cons (q : κ) (e : M.Event) (tr : List M.Event) : happens key q (e :: tr) =
    if key e.input = q then e.io :: happens key q tr else happens key q tr := by
  unfold happens
  by_cases h : key e.input = q <;> simp [h]

theorem happens_inputs (q : κ) (tr : List M.Event) :
    (happens key q tr).map Prod.fst = share key q (tr.map (·.input)) := by
  induction tr with
  | nil => rfl
  | cons e tr ih =>
    rw [happens_cons, List.map_cons, share_cons]
    by_cases h : key e.input = q
    · simp [h, ih, Machine.Event.io]
    · simp [h, ih]

theorem agree (q : κ) {tr tr' : List M.Event} {x y y' : α}
    (h : ∃ xs : List N.Event, Machine.Path x xs y ∧ xs.map Machine.Event.io = happens key q tr)
    (h' : ∃ xs : List N.Event, Machine.Path x xs y' ∧ xs.map Machine.Event.io = happens key q tr')
    (hin : share key q (tr.map (·.input)) = share key q (tr'.map (·.input))) :
    y = y' ∧ (happens key q tr).map Prod.snd = (happens key q tr').map Prod.snd := by
  obtain ⟨xs, hx, hio⟩ := h
  obtain ⟨xs', hx', hio'⟩ := h'
  have inputs : ∀ {ys : List N.Event}, ys.map (·.input) = (ys.map Machine.Event.io).map Prod.fst := by
    intro ys
    rw [List.map_map]
    rfl
  have outs : ∀ {ys : List N.Event}, ys.map (·.out) = (ys.map Machine.Event.io).map Prod.snd := by
    intro ys
    rw [List.map_map]
    rfl
  obtain ⟨hend, hout⟩ := Machine.path_det hx hx' (by
    rw [inputs, inputs, hio, hio', happens_inputs, happens_inputs, hin])
  rw [outs, outs, hio, hio'] at hout
  exact ⟨hend, hout⟩

namespace Splits

variable (hS : Splits M N cell key Inv Fits)
include hS

omit [DecidableEq κ] in
theorem step_some {s t : σ} {i : ι} {out : ο} (hs : Inv s) (hf : Fits s i)
    (h : M.step s i = some (t, out)) :
    N.step (cell s (key i)) i = some (cell t (key i), out) := by
  have hown := hS.own hs hf
  rw [h] at hown
  generalize N.step (cell s (key i)) i = r at hown
  cases hown with
  | @some _ y hxy =>
    obtain ⟨hc, ho⟩ := hxy
    exact congrArg some (Prod.ext hc.symm ho.symm)

theorem path (q : κ) {tr : List M.Event} {s t : σ} (hp : Machine.Path s tr t) (hs : Inv s)
    (hfit : ∀ e ∈ tr, key e.input = q → Fits e.pre e.input) :
    ∃ tr' : List N.Event, Machine.Path (cell s q) tr' (cell t q) ∧
      tr'.map Machine.Event.io = happens key q tr := by
  have hinv : ∀ e ∈ tr, Inv e.pre := by
    intro e he
    obtain ⟨tr₁, tr₂, rfl⟩ := List.append_of_mem he
    obtain ⟨u, hp₁, rfl, -⟩ := Machine.path_append.mp hp
    exact Machine.path_keeps (R := fun _ => True) (fun x _ hx => hS.inv hx x.fired) hp₁
      (fun _ _ => trivial) hs
  refine Machine.path_shadow (N := N) (f := fun s => cell s q)
    (g := fun e => if key e.input = q then some e.io else none) hp (fun e he hsel => ?_)
    fun e he i out hsel => ?_
  · refine hS.others (hinv e he) e.fired q fun hq => ?_
    rw [if_pos hq.symm] at hsel
    cases hsel
  · by_cases hq : key e.input = q
    · rw [if_pos hq] at hsel
      cases hsel
      have hstep := hS.step_some (hinv e he) (hfit e he hq) e.fired
      rw [hq] at hstep
      exact hstep
    · rw [if_neg hq] at hsel
      cases hsel

/-- What becomes of a cell, and what comes out of it, depends on what is done at its own
key only. -/
theorem isolated (q : κ) {tr tr' : List M.Event} {s s' t t' : σ} (hp : Machine.Path s tr t)
    (hp' : Machine.Path s' tr' t') (hs : Inv s) (hs' : Inv s') (hcell : cell s q = cell s' q)
    (hfit : ∀ e ∈ tr, key e.input = q → Fits e.pre e.input)
    (hfit' : ∀ e ∈ tr', key e.input = q → Fits e.pre e.input)
    (hin : share key q (tr.map (·.input)) = share key q (tr'.map (·.input))) :
    cell t q = cell t' q ∧
      (happens key q tr).map Prod.snd = (happens key q tr').map Prod.snd := by
  have h := hS.path q hp hs hfit
  have h' := hS.path q hp' hs' hfit'
  rw [hcell] at h
  exact agree q h h' hin

end Splits

end Cells
