import Mathlib.Data.List.Induction

/-!
# Machines and their runs

A machine is a partial step function with outputs: `step s i = none` says that the
program does not survive the step. A run is the list of the steps taken from an
initial state. What has to be remembered about the past is read off that list,
so a property of states, of single steps and of whole histories is proved by the
same induction, `Run.induct`; `Run.meets_iff` is the form of it that compares two
conditions on the steps of a run.
-/

structure Machine (σ ι ο : Type) where
  init : σ → Prop
  step : σ → ι → Option (σ × ο)

namespace Machine

variable {σ ι ο : Type} {M : Machine σ ι ο}

structure Event (M : Machine σ ι ο) where
  pre : σ
  input : ι
  post : σ
  out : ο
  fired : M.step pre input = some (post, out)

def Path : σ → List M.Event → σ → Prop
  | s, [], t => s = t
  | s, e :: tr, t => s = e.pre ∧ Path e.post tr t

def Run (tr : List M.Event) (s : σ) : Prop := ∃ s₀, M.init s₀ ∧ Path s₀ tr s

/-! ## Paths -/

theorem path_append {s t : σ} : ∀ {tr₁ tr₂ : List M.Event},
    Path s (tr₁ ++ tr₂) t ↔ ∃ u, Path s tr₁ u ∧ Path u tr₂ t
  | [], tr₂ => by simp [Path]
  | e :: tr₁, tr₂ => by
    simp only [List.cons_append, Path]
    rw [path_append (s := e.post)]
    constructor
    · intro ⟨hs, u, h₁, h₂⟩; exact ⟨u, ⟨hs, h₁⟩, h₂⟩
    · intro ⟨u, ⟨hs, h₁⟩, h₂⟩; exact ⟨hs, u, h₁, h₂⟩

theorem path_snoc {s t : σ} {tr : List M.Event} {e : M.Event} :
    Path s (tr ++ [e]) t ↔ Path s tr e.pre ∧ e.post = t := by
  rw [path_append]
  constructor
  · rintro ⟨u, h, rfl, ht⟩; exact ⟨h, ht⟩
  · intro ⟨h, ht⟩; exact ⟨_, h, rfl, ht⟩

theorem path_keeps {P : σ → Prop} {R : M.Event → Prop} (hs : ∀ e, R e → P e.pre → P e.post) :
    ∀ {tr : List M.Event} {s t : σ}, Path s tr t → (∀ e ∈ tr, R e) → P s → P t
  | [], _, _, rfl, _, h => h
  | e :: _, _, _, ⟨rfl, ht⟩, hR, h =>
    path_keeps hs ht (fun e' he' => hR e' (List.mem_cons_of_mem _ he'))
      (hs e (hR e (List.mem_cons_self ..)) h)

/-- What comes in is put at the end of a queue and what goes out is taken from its front: so over
a path everything goes out in the order it came in, but for what is still there. -/
theorem path_queue {α : Type} (queue : σ → List α) {comes goes : σ → ι → List α}
    (hs : ∀ e : M.Event, goes e.pre e.input ++ queue e.post = queue e.pre ++ comes e.pre e.input)
    {tr : List M.Event} {s t : σ} (hp : Path s tr t) :
    (tr.flatMap fun e => goes e.pre e.input) ++ queue t =
      queue s ++ tr.flatMap fun e => comes e.pre e.input := by
  induction tr generalizing s with
  | nil =>
    cases hp
    simp
  | cons e tr ih =>
    obtain ⟨rfl, hp⟩ := hp
    rw [List.flatMap_cons, List.flatMap_cons, List.append_assoc, ih hp, ← List.append_assoc, hs,
      List.append_assoc]

/-- A number that no step makes larger and that the steps with `C` lower bounds how many of
them there are. -/
theorem path_countP (left : σ → Nat) {P : σ → Prop} {C : σ → ι → Bool}
    (hs : ∀ e : M.Event, P e.pre → P e.post ∧
      left e.post + (if C e.pre e.input then 1 else 0) ≤ left e.pre)
    {tr : List M.Event} {s t : σ} (hp : Path s tr t) (h : P s) :
    left t + tr.countP (fun e => C e.pre e.input) ≤ left s := by
  induction tr generalizing s with
  | nil =>
    cases hp
    exact Nat.le_refl _
  | cons e tr ih =>
    obtain ⟨rfl, hp⟩ := hp
    obtain ⟨hpost, hle⟩ := hs e h
    have := ih hp hpost
    rw [List.countP_cons]
    omega

theorem path_det : ∀ {tr tr' : List M.Event} {s t t' : σ}, Path s tr t → Path s tr' t' →
    tr.map (·.input) = tr'.map (·.input) → t = t' ∧ tr.map (·.out) = tr'.map (·.out)
  | [], [], _, _, _, rfl, rfl, _ => ⟨rfl, rfl⟩
  | [], _ :: _, _, _, _, _, _, hin => by simp at hin
  | _ :: _, [], _, _, _, _, _, hin => by simp at hin
  | e :: tr, e' :: tr', _, _, _, ⟨hs, ht⟩, ⟨hs', ht'⟩, hin => by
    rw [List.map_cons, List.map_cons] at hin
    obtain ⟨hi, hin⟩ := List.cons.inj hin
    have hfired := e.fired
    rw [← hs, hs', hi, e'.fired] at hfired
    obtain ⟨hpost, hout⟩ := Prod.mk.inj (Option.some.inj hfired)
    rw [← hpost] at ht
    obtain ⟨heq, houts⟩ := path_det ht ht' hin
    exact ⟨heq, by rw [List.map_cons, List.map_cons, houts, hout]⟩

def Event.io (e : M.Event) : ι × ο := (e.input, e.out)

/-- A machine seen through `f`: where `g` finds a step of another machine there is one,
and where it does not nothing is seen to happen. -/
theorem path_shadow {τ κ π : Type} {N : Machine τ κ π} {f : σ → τ}
    {g : M.Event → Option (κ × π)} {tr : List M.Event} {s t : σ} (hp : Path s tr t)
    (hnone : ∀ e ∈ tr, g e = none → f e.post = f e.pre)
    (hsome : ∀ e ∈ tr, ∀ i out, g e = some (i, out) → N.step (f e.pre) i = some (f e.post, out)) :
    ∃ tr' : List N.Event, Path (f s) tr' (f t) ∧ tr'.map Event.io = tr.filterMap g := by
  induction tr generalizing s with
  | nil =>
    cases hp
    exact ⟨[], rfl, rfl⟩
  | cons e tr ih =>
    obtain ⟨rfl, hp⟩ := hp
    obtain ⟨tr', hp', hio⟩ := ih hp (fun x hx => hnone x (List.mem_cons_of_mem _ hx))
      fun x hx => hsome x (List.mem_cons_of_mem _ hx)
    cases h : g e with
    | none =>
      rw [hnone e (List.mem_cons_self ..) h] at hp'
      rw [List.filterMap_cons_none h]
      exact ⟨tr', hp', hio⟩
    | some x =>
      have hstep := hsome e (List.mem_cons_self ..) x.1 x.2 h
      rw [List.filterMap_cons_some h, ← hio]
      exact ⟨⟨_, x.1, _, x.2, hstep⟩ :: tr', ⟨rfl, hp'⟩, rfl⟩

/-! ## Runs -/

theorem run_nil {s : σ} : Run (M := M) [] s ↔ M.init s := by
  constructor
  · rintro ⟨_, h, rfl⟩; exact h
  · intro h; exact ⟨s, h, rfl⟩

theorem run_snoc {tr : List M.Event} {e : M.Event} {s : σ} :
    Run (tr ++ [e]) s ↔ Run tr e.pre ∧ e.post = s := by
  unfold Run
  simp only [path_snoc]
  constructor
  · intro ⟨s₀, h, hp, he⟩; exact ⟨⟨s₀, h, hp⟩, he⟩
  · intro ⟨⟨s₀, h, hp⟩, he⟩; exact ⟨s₀, h, hp, he⟩

theorem run_append {tr₁ tr₂ : List M.Event} {t : σ} :
    Run (tr₁ ++ tr₂) t ↔ ∃ u, Run tr₁ u ∧ Path u tr₂ t := by
  unfold Run
  simp only [path_append]
  constructor
  · intro ⟨s₀, h, u, h₁, h₂⟩; exact ⟨u, ⟨s₀, h, h₁⟩, h₂⟩
  · intro ⟨u, ⟨s₀, h, h₁⟩, h₂⟩; exact ⟨s₀, h, u, h₁, h₂⟩

theorem run_at {tr₁ tr₂ : List M.Event} {e : M.Event} {t : σ} (h : Run (tr₁ ++ e :: tr₂) t) :
    Run tr₁ e.pre ∧ Path e.post tr₂ t := by
  obtain ⟨u, h₁, rfl, h₂⟩ := run_append.mp h
  exact ⟨h₁, h₂⟩

theorem Run.induct {P : List M.Event → σ → Prop} (h0 : ∀ s, M.init s → P [] s)
    (hs : ∀ tr e, Run tr e.pre → P tr e.pre → P (tr ++ [e]) e.post) {tr : List M.Event} :
    ∀ {s : σ}, Run tr s → P tr s := by
  induction tr using List.reverseRecOn with
  | nil => intro s h; exact h0 s (run_nil.mp h)
  | append_singleton tr e ih =>
    intro s h
    obtain ⟨hr, rfl⟩ := run_snoc.mp h
    exact hs tr e hr (ih hr)

theorem Run.inv {P : σ → Prop} (h0 : ∀ s, M.init s → P s) (hs : ∀ e : M.Event, P e.pre → P e.post)
    {tr : List M.Event} {s : σ} (h : Run tr s) : P s :=
  Run.induct (P := fun _ s => P s) h0 (fun _ e _ => hs e) h

theorem Run.reached {tr : List M.Event} {s : σ} (h : Run tr s) {e : M.Event} (he : e ∈ tr) :
    ∃ tr₁ : List M.Event, Run tr₁ e.pre := by
  obtain ⟨tr₁, tr₂, rfl⟩ := List.append_of_mem he
  exact ⟨tr₁, (run_at h).1⟩

/-! ## Since -/

/-- `R` since `P`: the history `tr` ends in an event with `P` and then `xs`, all with `R`. -/
def Since (P R : M.Event → Prop) (tr xs : List M.Event) : Prop :=
  ∃ ta f, tr = ta ++ f :: xs ∧ P f ∧ ∀ x ∈ xs, R x

section
variable {P R : M.Event → Prop}

theorem Since.start {t : List M.Event} {f : M.Event} (hP : P f) : Since P R (t ++ [f]) [] :=
  ⟨t, f, rfl, hP, fun _ h => nomatch h⟩

theorem Since.snoc {tr xs : List M.Event} {e : M.Event} (h : Since P R tr xs) (hR : R e) :
    Since P R (tr ++ [e]) (xs ++ [e]) := by
  obtain ⟨ta, f, rfl, hP, hxs⟩ := h
  refine ⟨ta, f, by simp, hP, fun x hx => ?_⟩
  rcases List.mem_append.mp hx with hx | hx
  · exact hxs x hx
  · rw [List.mem_singleton] at hx; subst hx; exact hR

theorem since_snoc {tr xs : List M.Event} {e : M.Event} : Since P R (tr ++ [e]) xs ↔
    xs = [] ∧ P e ∨ ∃ ys, xs = ys ++ [e] ∧ Since P R tr ys ∧ R e := by
  constructor
  · intro ⟨ta, f, ht, hP, hR⟩
    rcases List.eq_nil_or_concat xs with hn | ⟨ys, x, hn⟩
    · subst hn
      obtain ⟨-, hx⟩ := List.append_inj' ht rfl
      obtain ⟨rfl, -⟩ := List.cons.inj hx
      exact Or.inl ⟨rfl, hP⟩
    · rw [List.concat_eq_append] at hn
      subst hn
      rw [← List.cons_append, ← List.append_assoc] at ht
      obtain ⟨rfl, hx⟩ := List.append_inj' ht rfl
      obtain ⟨rfl, -⟩ := List.cons.inj hx
      exact Or.inr ⟨ys, rfl, ⟨ta, f, rfl, hP, fun x hx => hR x (by simp [hx])⟩, hR e (by simp)⟩
  · intro h
    rcases h with ⟨rfl, hP⟩ | ⟨ys, rfl, hs, hR⟩
    · exact .start hP
    · exact hs.snoc hR

theorem Run.since {J : List M.Event → σ → Prop}
    (hP : ∀ (tr : List M.Event) f, Run tr f.pre → P f → J [] f.post)
    (hR : ∀ (tr : List M.Event) xs e, Run tr e.pre → R e → J xs e.pre → J (xs ++ [e]) e.post)
    {tr xs : List M.Event} {s : σ} (h : Run tr s) (hs : Since P R tr xs) : J xs s := by
  obtain ⟨ta, f, rfl, hf, hxs⟩ := hs
  induction xs using List.reverseRecOn generalizing s with
  | nil =>
    obtain ⟨hr, rfl⟩ := run_snoc.mp h
    exact hP ta f hr hf
  | append_singleton xs e ih =>
    rw [← List.cons_append, ← List.append_assoc] at h
    obtain ⟨hr, rfl⟩ := run_snoc.mp h
    have hx : ∀ x ∈ xs, R x := fun x hx => hxs x (List.mem_append_left _ hx)
    exact hR _ xs e hr (hxs e (by simp)) (ih hr hx)

end

/-! ## Replay -/

def replay (M : Machine σ ι ο) : σ → List ι → Option (List M.Event × σ)
  | s, [] => some ([], s)
  | s, i :: is =>
    match h : M.step s i with
    | none => none
    | some (t, out) => (replay M t is).map fun r => (⟨s, i, t, out, h⟩ :: r.1, r.2)

theorem replay_path : ∀ {is : List ι} {s t : σ} {tr : List M.Event},
    M.replay s is = some (tr, t) → Path s tr t
  | [], s, t, tr, h => by
    cases h; rfl
  | i :: is, s, t, tr, h => by
    unfold replay at h
    split at h
    · cases h
    · obtain ⟨r, hr, he⟩ := Option.map_eq_some_iff.mp h
      cases he
      exact ⟨rfl, replay_path hr⟩

theorem replay_inputs : ∀ {is : List ι} {s t : σ} {tr : List M.Event},
    M.replay s is = some (tr, t) → tr.map (·.input) = is
  | [], s, t, tr, h => by
    cases h; rfl
  | i :: is, s, t, tr, h => by
    unfold replay at h
    split at h
    · cases h
    · obtain ⟨r, hr, he⟩ := Option.map_eq_some_iff.mp h
      cases he
      exact congrArg (i :: ·) (replay_inputs hr)

theorem replay_cons {s t : σ} {i : ι} {out : ο} {is : List ι} {r : List M.Event × σ}
    (h : M.step s i = some (t, out)) (hr : M.replay t is = some r) :
    ∃ e : M.Event, e.out = out ∧ M.replay s (i :: is) = some (e :: r.1, r.2) := by
  refine ⟨⟨s, i, t, out, h⟩, rfl, ?_⟩
  unfold replay
  split
  · rename_i h'
    cases h.symm.trans h'
  · rename_i h'
    cases h.symm.trans h'
    rw [hr]
    rfl

theorem replay_cons_none {s : σ} {i : ι} {is : List ι} : M.replay s (i :: is) = none ↔
    M.step s i = none ∨ ∃ t out, M.step s i = some (t, out) ∧ M.replay t is = none := by
  rw [replay]
  split
  · rename_i h
    simp [h]
  · rename_i t out h
    simp [h]

/-- A list of inputs is not survived if one of them is not, in the state the ones before
it lead to. -/
theorem replay_none_iff {is : List ι} : ∀ {s : σ}, M.replay s is = none ↔
    ∃ is₁ i is₂ tr t, is = is₁ ++ i :: is₂ ∧ M.replay s is₁ = some (tr, t) ∧
      M.step t i = none := by
  induction is with
  | nil => intro s; simp [replay]
  | cons i is ih =>
    intro s
    rw [replay_cons_none]
    constructor
    · intro h
      rcases h with h | ⟨t, out, h, hr⟩
      · exact ⟨[], i, is, [], s, rfl, rfl, h⟩
      · obtain ⟨is₁, j, is₂, tr, u, rfl, hr, hj⟩ := ih.mp hr
        obtain ⟨e, -, hcons⟩ := replay_cons h hr
        exact ⟨i :: is₁, j, is₂, e :: tr, u, rfl, hcons, hj⟩
    · rintro ⟨is₁, j, is₂, tr, u, he, hr, hj⟩
      cases is₁ with
      | nil =>
        cases he
        cases hr
        exact Or.inl hj
      | cons i' is₁ =>
        cases he
        cases h : M.step s i with
        | none => exact Or.inl rfl
        | some r =>
          refine Or.inr ⟨r.1, r.2, rfl, ih.mpr ?_⟩
          rw [replay] at hr
          split at hr
          · cases hr
          · rename_i h'
            obtain ⟨x, hx, he⟩ := Option.map_eq_some_iff.mp hr
            cases h.symm.trans h'
            cases he
            exact ⟨is₁, j, is₂, x.1, x.2, rfl, hx, hj⟩

theorem exists_replay {s₀ : σ} (h0 : M.init s₀) (is : List ι) {Q : List M.Event × σ → Bool}
    (h : (M.replay s₀ is).any Q = true) : ∃ (tr : List M.Event) (s : σ),
      Run tr s ∧ tr.map (·.input) = is ∧ Q (tr, s) = true := by
  obtain ⟨⟨tr, s⟩, hr, hQ⟩ := (Option.any_eq_true ..).mp h
  exact ⟨tr, s, ⟨s₀, h0, replay_path hr⟩, replay_inputs hr, hQ⟩

theorem exists_run {s₀ : σ} (h0 : M.init s₀) (is : List ι) {Q : List M.Event × σ → Bool}
    (h : (M.replay s₀ is).any Q = true) :
    ∃ (tr : List M.Event) (s : σ), Run tr s ∧ Q (tr, s) = true := by
  obtain ⟨tr, s, hr, -, hQ⟩ := exists_replay h0 is h
  exact ⟨tr, s, hr, hQ⟩

theorem exists_event {s₀ : σ} (h0 : M.init s₀) (is : List ι) {Q : M.Event → Bool}
    (h : (M.replay s₀ is).any (fun r => r.1.any Q) = true) :
    ∃ (tr : List M.Event) (s : σ), Run tr s ∧ ∃ e ∈ tr, Q e = true := by
  obtain ⟨tr, s, hr, hQ⟩ := exists_run h0 is h
  exact ⟨tr, s, hr, List.any_eq_true.mp hQ⟩

/-- Two machines in step with each other: they stop at the same input, and until then what
is related stays related. -/
theorem lockstep {τ κ π : Type} {N : Machine τ κ π} {R : σ → τ → Prop} {I : ι → κ → Prop}
    {O : ο → π → Prop} (hs : ∀ {s t i j}, R s t → I i j →
      Option.Rel (fun x y => R x.1 y.1 ∧ O x.2 y.2) (M.step s i) (N.step t j))
    {is : List ι} {js : List κ} (h : List.Forall₂ I is js) : ∀ {s : σ} {t : τ}, R s t →
      Option.Rel (fun x y => R x.2 y.2 ∧ List.Forall₂ O (x.1.map (·.out)) (y.1.map (·.out)))
        (M.replay s is) (N.replay t js) := by
  induction h with
  | nil =>
    intro s t hR
    exact .some ⟨hR, .nil⟩
  | @cons i j is js hi _ ih =>
    intro s t hR
    have hstep := hs hR hi
    rw [replay, replay]
    split
    · rename_i hM
      split
      · exact .none
      · rename_i hN
        rw [hM, hN] at hstep
        cases hstep
    · rename_i hM
      split
      · rename_i hN
        rw [hM, hN] at hstep
        cases hstep
      · rename_i hN
        rw [hM, hN] at hstep
        obtain ⟨hR', hO⟩ : R _ _ ∧ O _ _ := by
          cases hstep with
          | some h => exact h
        have hrest := ih hR'
        generalize M.replay _ is = x at hrest ⊢
        generalize N.replay _ js = y at hrest ⊢
        cases hrest with
        | none => exact .none
        | some h => exact .some ⟨h.1, .cons hO h.2⟩

/-! ## Conditions on the steps of a run -/

/-- Every event of `tr` meets `C`, which may look at the events before it. -/
def Meets (C : List M.Event → M.Event → Prop) (tr : List M.Event) : Prop :=
  ∀ tr₁ e tr₂, tr = tr₁ ++ e :: tr₂ → C tr₁ e

theorem meets_snoc {C : List M.Event → M.Event → Prop} {t : List M.Event} {e : M.Event} :
    Meets C (t ++ [e]) ↔ Meets C t ∧ C t e := by
  constructor
  · intro h
    refine ⟨fun tr₁ e' tr₂ ht => h tr₁ e' (tr₂ ++ [e]) (by rw [ht]; simp), h t e [] rfl⟩
  · intro ⟨h, he⟩ tr₁ e' tr₂ ht
    rcases List.eq_nil_or_concat tr₂ with rfl | ⟨tr₃, x, rfl⟩
    · obtain ⟨rfl, hx⟩ := List.append_inj' ht rfl
      obtain rfl := List.cons.inj hx |>.1
      exact he
    · rw [List.concat_eq_append, ← List.cons_append, ← List.append_assoc] at ht
      exact h tr₁ e' tr₃ (List.append_inj' ht rfl).1

theorem meets_iff_take {C : List M.Event → M.Event → Prop} {tr : List M.Event} :
    Meets C tr ↔ ∀ n, (hn : n < tr.length) → C (tr.take n) (tr.get ⟨n, hn⟩) := by
  constructor
  · intro h n hn
    refine h _ _ (tr.drop (n + 1)) ?_
    rw [List.get_eq_getElem, List.getElem_cons_drop, List.take_append_drop]
  · rintro h tr₁ e tr₂ rfl
    have := h tr₁.length (by simp)
    rw [List.take_left] at this
    simpa using this

theorem meets_mem {C : M.Event → Prop} {tr : List M.Event} :
    Meets (fun _ e => C e) tr ↔ ∀ e ∈ tr, C e := by
  constructor
  · intro h e he
    obtain ⟨tr₁, tr₂, rfl⟩ := List.append_of_mem he
    exact h tr₁ e tr₂ rfl
  · rintro h tr₁ e tr₂ rfl
    exact h e (by simp)

theorem meets_and {C D : List M.Event → M.Event → Prop} {tr : List M.Event} :
    Meets (fun tr e => C tr e ∧ D tr e) tr ↔ Meets C tr ∧ Meets D tr := by
  constructor
  · intro h
    exact ⟨fun tr₁ e tr₂ ht => (h tr₁ e tr₂ ht).1, fun tr₁ e tr₂ ht => (h tr₁ e tr₂ ht).2⟩
  · intro ⟨hC, hD⟩ tr₁ e tr₂ ht
    exact ⟨hC tr₁ e tr₂ ht, hD tr₁ e tr₂ ht⟩

theorem Meets.at {C : List M.Event → M.Event → Prop} {tr₁ tr₂ : List M.Event} {e : M.Event}
    (h : Meets C (tr₁ ++ e :: tr₂)) : C tr₁ e := h tr₁ e tr₂ rfl

/-- A property of single steps holds throughout a run when, in the states the
run visits, it follows from the condition the steps meet. -/
theorem Run.meets_imp {C D : List M.Event → M.Event → Prop}
    (hs : ∀ tr e, Run tr e.pre → Meets C tr → C tr e → D tr e)
    {tr : List M.Event} {s : σ} (h : Run tr s) (hC : Meets C tr) : Meets D tr := by
  intro tr₁ e tr₂ ht
  subst ht
  have hC₁ : Meets C tr₁ := fun t₁ x t₂ hx => hC t₁ x (t₂ ++ e :: tr₂) (by rw [hx]; simp)
  exact hs tr₁ e (run_at h).1 hC₁ hC.at

theorem Run.meets_iff {C D : List M.Event → M.Event → Prop}
    (hs : ∀ tr e, Run tr e.pre → (C tr e ↔ D tr e))
    {tr : List M.Event} {s : σ} (h : Run tr s) : Meets C tr ↔ Meets D tr :=
  ⟨Run.meets_imp (fun tr₁ e hr _ => (hs tr₁ e hr).1) h,
    Run.meets_imp (fun tr₁ e hr _ => (hs tr₁ e hr).2) h⟩

theorem Run.meets_iff_inv {C D : List M.Event → M.Event → Prop} {I : List M.Event → σ → Prop}
    (h0 : ∀ s, M.init s → I [] s)
    (hs : ∀ (tr : List M.Event) (e : M.Event), Run tr e.pre → I tr e.pre → (C tr e ↔ D tr e))
    (hI : ∀ (tr : List M.Event) (e : M.Event), Run tr e.pre → I tr e.pre → D tr e →
      I (tr ++ [e]) e.post)
    {tr : List M.Event} {s : σ} (h : Run tr s) : Meets C tr ↔ Meets D tr := by
  have both : (Meets C tr ↔ Meets D tr) ∧ (Meets D tr → I tr s) := by
    refine Run.induct (P := fun tr s => (Meets C tr ↔ Meets D tr) ∧ (Meets D tr → I tr s)) ?_ ?_ h
    · intro s hi
      exact ⟨iff_of_true (fun _ _ _ h => by simp at h) (fun _ _ _ h => by simp at h), fun _ => h0 s hi⟩
    · intro tr e hr ⟨ih, ihI⟩
      rw [meets_snoc, meets_snoc, ih]
      exact ⟨and_congr_right fun hD => hs tr e hr (ihI hD), fun hD => hI tr e hr (ihI hD.1) hD.2⟩
  exact both.1

/-! ## Guards -/

section
variable {ok : σ → ι → ο → Bool}

/-- The machine that stops at a step that is not `ok`. -/
def guard (M : Machine σ ι ο) (ok : σ → ι → ο → Bool) : Machine σ ι ο where
  init := M.init
  step s i := (M.step s i).filter fun r => ok s i r.2

theorem guard_fired {s t : σ} {i : ι} {out : ο} (h : (M.guard ok).step s i = some (t, out)) :
    M.step s i = some (t, out) ∧ ok s i out = true :=
  Option.filter_eq_some_iff.mp h

theorem guard_none {s : σ} {i : ι} : (M.guard ok).step s i = none ↔
    ∀ t out, M.step s i = some (t, out) → ok s i out = false := by
  unfold guard
  dsimp only
  rw [Option.filter_eq_none_iff]
  simp only [Prod.forall, Bool.not_eq_true]

def unguarded (e : (M.guard ok).Event) : M.Event :=
  ⟨e.pre, e.input, e.post, e.out, (guard_fired e.fired).1⟩

theorem guard_path {tr : List (M.guard ok).Event} {s t : σ} (h : Path s tr t) :
    Path s (tr.map unguarded) t := by
  induction tr generalizing s with
  | nil => exact h
  | cons e tr ih => exact ⟨h.1, ih h.2⟩

/-- A guarded run is a run, so that what holds of all runs holds of it. -/
theorem guard_run {tr : List (M.guard ok).Event} {s : σ} (h : Run tr s) :
    Run (tr.map unguarded) s := by
  obtain ⟨s₀, h0, hp⟩ := h
  exact ⟨s₀, h0, guard_path hp⟩

end

end Machine
