import Mathlib.Algebra.BigOperators.Fin
import Mathlib.Algebra.Order.BigOperators.Group.Finset
import TcpDpdk.Lib.Rounds
import TcpDpdk.Program

/-!
# Stopping the program

One flag ends the loop of `main` and one that of each worker. A signal and the command `exit`
set them one after the other, in different orders. `stopped_iff` says when which of them are
set, and who has left its loop, and `winds_down` what is still read and carried out from then
on, and that it is soon over.
-/

namespace TcpDpdk

section
variable {n : Nat} {K : RteCksum} {s s' : Program n} {t : ProgramTurn n} {out : Out}

/-! ## Setting the flags -/

/-- A signal arrives, or the command `exit` is carried out. -/
def begins (s : Program n) : ProgramTurn n → Bool
  | .main _ _ _ _ stale =>
    match s.main with
    | .handling (call :: _) => (cliAction stale call.msgIn).isQuit
    | _ => false
  | .worker _ _ => false
  | .handler _ => false
  | .signal => true

/-- Someone has `todo` still to set. -/
def Program.Storing (s : Program n) (todo : List (Flag n)) : Prop :=
  todo ∈ s.handlers ∨ ∃ calls, s.main = .exiting todo calls

/-- What a turn does to the flags and to what is still to be set. -/
inductive Stores (s : Program n) (t : ProgramTurn n) (s' : Program n) : Prop
  | same : begins s t = false → (∀ f, s'.flag f = s.flag f) →
      (∀ todo, s'.Storing todo ↔ s.Storing todo) → Stores s t s'
  | began {todo} : begins s t = true → (∀ f, s'.flag f = s.flag f) →
      todo = exitStats ∨ todo = exitCommand →
      (∀ x, s'.Storing x ↔ s.Storing x ∨ x = todo) → Stores s t s'
  | wrote {f todo} : begins s t = false → s.Storing (f :: todo) →
      (∀ g, s'.flag g = true ↔ g = f ∨ s.flag g = true) → s'.Storing todo →
      (∀ x, s'.Storing x → s.Storing x ∨ x = todo) → Stores s t s'
  | ended : begins s t = false → s.Storing [] → (∀ f, s'.flag f = s.flag f) →
      (∀ x, s'.Storing x → s.Storing x) → Stores s t s'

theorem moved_stores (h : ProgramMoved K s t s' out) : Stores s t s' := by
  have elsewhere : ∀ {s' : Program n}, begins s t = false → s'.cpQuit = s.cpQuit →
      s'.dpQuit = s.dpQuit → s'.handlers = s.handlers →
      (∀ todo calls, s'.main = .exiting todo calls ↔ s.main = .exiting todo calls) →
      Stores s t s' := fun hb hcp hdp hh hm =>
    .same hb (flag_same hcp hdp) fun todo => by simp only [Program.Storing, hh, hm]
  cases h with
  | left hm _ => exact elsewhere (by simp [begins, hm]) rfl rfl rfl (by simp [hm])
  | goesOn hm _ => exact elsewhere (by simp [begins, hm]) rfl rfl rfl (by simp [hm])
  | accepted hm => exact elsewhere (by simp [begins, hm]) rfl rfl rfl (by simp [hm])
  | polled hm _ => exact elsewhere (by simp [begins, hm]) rfl rfl rfl (by simp [hm])
  | handled hm => exact elsewhere (by simp [begins, hm]) rfl rfl rfl (by simp [hm])
  | quit hm hq =>
    refine .began (by simp [begins, hm, hq]) (flag_same rfl rfl) (Or.inr rfl) fun x => ?_
    simp [Program.Storing, hm, eq_comm]
  | carried hm hq _ => exact elsewhere (by simp [begins, hm, hq]) rfl rfl rfl (by simp [hm])
  | @stored _ _ _ _ _ f todo calls hm =>
    refine .wrote (f := f) (by simp [begins, hm]) (Or.inr ⟨_, hm⟩) (flag_store s f)
      (Or.inr ⟨calls, rfl⟩) fun x hx => ?_
    simpa [Program.Storing, eq_comm, or_assoc] using hx.imp_left Or.inl
  | allStored hm =>
    refine .ended (by simp [begins, hm]) (Or.inr ⟨_, hm⟩) (flag_same rfl rfl) fun x hx => ?_
    exact Or.inl (by simpa [Program.Storing] using hx)
  | joined hm _ => exact elsewhere (by simp [begins, hm]) rfl rfl rfl (by simp [hm])
  | waits hm _ => exact elsewhere (by simp [begins, hm]) rfl rfl rfl fun _ _ => Iff.rfl
  | returned hm => exact elsewhere (by simp [begins, hm]) rfl rfl rfl fun _ _ => Iff.rfl
  | exits _ _ => exact elsewhere rfl rfl rfl rfl fun _ _ => Iff.rfl
  | polls _ _ => exact elsewhere rfl rfl rfl rfl fun _ _ => Iff.rfl
  | takes _ => exact elsewhere rfl rfl rfl rfl fun _ _ => Iff.rfl
  | through _ => exact elsewhere rfl rfl rfl rfl fun _ _ => Iff.rfl
  | received _ _ => exact elsewhere rfl rfl rfl rfl fun _ _ => Iff.rfl
  | exited _ => exact elsewhere rfl rfl rfl rfl fun _ _ => Iff.rfl
  | @sets _ i f todo hi =>
    refine .wrote (f := f) rfl (Or.inl (List.mem_of_getElem? hi)) (flag_store s f)
      (Or.inl ?_) fun x hx => ?_
    · obtain ⟨hlt, -⟩ := List.getElem?_eq_some_iff.mp hi
      exact List.mem_set hlt todo
    · rcases hx with hx | hx
      · exact (List.mem_or_eq_of_mem_set hx).imp_left Or.inl
      · exact Or.inl (Or.inr (by simpa using hx))
  | @handlerReturns _ i hi =>
    exact .ended rfl (Or.inl (List.mem_of_getElem? hi)) (flag_same rfl rfl)
      fun x hx => hx.imp_left List.mem_of_mem_eraseIdx
  | noHandler _ => exact elsewhere rfl rfl rfl rfl fun _ _ => Iff.rfl
  | signalled =>
    refine .began rfl (flag_same rfl rfl) (Or.inl rfl) fun x => ?_
    simp [Program.Storing, or_right_comm]

theorem Stores.keeps (h : Stores s t s') {f : Flag n} (hf : s.flag f = true) : s'.flag f = true := by
  cases h with
  | same _ hflags _ => rw [hflags, hf]
  | began _ hflags _ _ => rw [hflags, hf]
  | wrote _ _ hflags _ _ => exact (hflags f).mpr (Or.inr hf)
  | ended _ _ hflags _ => rw [hflags, hf]

/-- Whoever is at it stores in the one order or in the other, and has stored what it has not
still to store. -/
def Program.Ordered (s : Program n) : Prop := ∀ todo, s.Storing todo →
  (todo <:+ exitStats ∨ todo <:+ exitCommand) ∧ ∀ f, f ∉ todo → s.flag f = true

theorem Stores.ordered (h : Stores s t s') (hs : s.Ordered) : s'.Ordered := by
  intro x hx
  have before : s.Storing x → (x <:+ exitStats ∨ x <:+ exitCommand) ∧ ∀ f, f ∉ x → s'.flag f = true :=
    fun hx => ⟨(hs x hx).1, fun f hf => h.keeps ((hs x hx).2 f hf)⟩
  cases h with
  | same _ _ hstoring => exact before ((hstoring x).mp hx)
  | began _ _ htodo hstoring =>
    rcases (hstoring x).mp hx with hx | rfl
    · exact before hx
    · rcases htodo with rfl | rfl
      · exact ⟨Or.inl (List.suffix_refl _), fun f hf => absurd (mem_exitStats f) hf⟩
      · exact ⟨Or.inr (List.suffix_refl _), fun f hf => absurd (mem_exitCommand f) hf⟩
  | @wrote f _ _ hpre hflags _ hstoring =>
    rcases hstoring x hx with hx | rfl
    · exact before hx
    · obtain ⟨hsuffix, hset⟩ := hs _ hpre
      refine ⟨hsuffix.imp (List.suffix_cons _ _).trans (List.suffix_cons _ _).trans,
        fun g hg => (hflags g).mpr ?_⟩
      by_cases hgf : g = f
      · exact Or.inl hgf
      · exact Or.inr (hset g fun hmem => (List.mem_cons.mp hmem).elim hgf hg)
  | ended _ _ _ hstoring => exact before (hstoring x hx)

/-- Somebody is at it, or all flags are set. -/
def Program.Stopping (s : Program n) : Prop :=
  (∃ todo, s.Storing todo) ∨ ∀ f, s.flag f = true

theorem Stores.stopping (h : Stores s t s') (hs : s.Ordered) :
    s.Stopping ∨ begins s t = true → s'.Stopping := by
  intro hstop
  cases h with
  | same hb hflags hstoring =>
    rw [hb] at hstop
    rcases hstop.resolve_right Bool.false_ne_true with ⟨todo, htodo⟩ | hall
    · exact Or.inl ⟨todo, (hstoring todo).mpr htodo⟩
    · exact Or.inr fun f => (hflags f).trans (hall f)
  | began _ _ _ hstoring => exact Or.inl ⟨_, (hstoring _).mpr (Or.inr rfl)⟩
  | wrote _ _ _ hpost _ => exact Or.inl ⟨_, hpost⟩
  | ended _ hpre hflags _ =>
    exact Or.inr fun f => (hflags f).trans ((hs [] hpre).2 f List.not_mem_nil)

theorem Stores.begun (h : Stores s t s') : ((∃ f, s'.flag f = true) ∨ ∃ todo, s'.Storing todo) →
    ((∃ f, s.flag f = true) ∨ ∃ todo, s.Storing todo) ∨ begins s t = true := by
  intro hpost
  cases h with
  | same _ hflags hstoring =>
    refine Or.inl (hpost.imp ?_ ?_)
    · rintro ⟨f, hf⟩
      exact ⟨f, (hflags f).symm.trans hf⟩
    · rintro ⟨todo, htodo⟩
      exact ⟨todo, (hstoring todo).mp htodo⟩
  | began hb _ _ _ => exact Or.inr hb
  | wrote _ hpre _ _ _ => exact Or.inl (Or.inr ⟨_, hpre⟩)
  | ended _ hpre _ _ => exact Or.inl (Or.inr ⟨_, hpre⟩)

/-! ## Leaving the loops -/

/-- No one leaves its loop before its flag is set, and `main` leaves after the others. -/
structure Program.Gone (s : Program n) : Prop where
  main : s.main = .joining ∨ s.main = .returned → s.cpQuit = true
  workers : ∀ j, s.workers j = .exited → s.dpQuit j = true
  joined : s.main = .returned → ∀ j, s.workers j = .exited

theorem gone_iff {w : WorkerPoint} : w.gone = true ↔ w = .exited := by
  cases w <;> simp [WorkerPoint.gone]

theorem Program.Gone.busy (hs : s.Gone) (panel : Panel Byte) (cores : TcpList n)
    {main : MainPoint n} (hj : main ≠ .joining) (hr : main ≠ .returned) :
    ({ s with panel, cores, main } : Program n).Gone :=
  ⟨fun h => (h.elim hj hr).elim, hs.workers, fun h => absurd h hr⟩

theorem Program.Gone.store (hs : s.Gone) (f : Flag n) : (s.store f).Gone := by
  have keeps : ∀ g, s.flag g = true → (s.store f).flag g = true := fun g hg =>
    (flag_store s f g).mpr (Or.inr hg)
  refine ⟨fun h => keeps .cpQuit (hs.main ?_), fun j hj => keeps (.dpQuit j) (hs.workers j ?_),
    fun h j => ?_⟩
  · rwa [store_main] at h
  · rwa [store_workers] at hj
  · rw [store_main] at h
    rw [store_workers]
    exact hs.joined h j

theorem Program.Gone.worker (hs : s.Gone) {j : Fin (n + 1)} {w : WorkerPoint}
    (hj : s.workers j ≠ .exited) (hw : w = .exited → s.dpQuit j = true) : (s.worker j w).Gone := by
  refine ⟨hs.main, fun x hx => ?_, fun hm => absurd (hs.joined hm j) hj⟩
  by_cases hxj : x = j
  · subst hxj
    rw [worker_self] at hx
    exact hw hx
  · rw [worker_ne s w hxj] at hx
    exact hs.workers x hx

theorem moved_gone (h : ProgramMoved K s t s' out) (hs : s.Gone) : s'.Gone := by
  cases h with
  | left hm hq => exact ⟨fun _ => hq, hs.workers, fun h => nomatch h⟩
  | goesOn _ _ => exact hs.busy _ _ (by simp) (by simp)
  | accepted _ => exact hs.busy _ _ (by simp) (by simp)
  | polled _ _ => exact hs.busy _ _ (by simp) (by simp)
  | handled _ => exact hs.busy _ _ (by simp) (by simp)
  | quit _ _ => exact hs.busy _ _ (by simp) (by simp)
  | carried _ _ _ => exact hs.busy _ _ (by simp) (by simp)
  | stored _ => exact (hs.store _).busy _ _ (by simp) (by simp)
  | allStored _ => exact hs.busy _ _ (by simp) (by simp)
  | joined hm hgone =>
    exact ⟨fun _ => hs.main (Or.inl hm), hs.workers, fun _ j => gone_iff.mp (hgone j)⟩
  | waits _ _ => exact hs
  | returned _ => exact hs
  | exits hw hq => exact hs.worker (by simp [hw]) fun _ => hq
  | polls hw _ => exact hs.worker (by simp [hw]) (by simp)
  | takes hw => exact hs.worker (by simp [hw]) (by simp)
  | through hw => exact hs.worker (by simp [hw]) (by simp)
  | @received j _ _ _ rest _ _ hw _ =>
    obtain ⟨hm, hx, hj⟩ := hs.worker (j := j) (w := .receiving rest) (by simp [hw]) (by simp)
    exact ⟨hm, hx, hj⟩
  | exited _ => exact hs
  | sets _ =>
    obtain ⟨hm, hx, hj⟩ := hs.store _
    exact ⟨hm, hx, hj⟩
  | handlerReturns _ => exact ⟨hs.main, hs.workers, hs.joined⟩
  | noHandler _ => exact hs
  | signalled => exact ⟨hs.main, hs.workers, hs.joined⟩

/-! ## In every run -/

def Begins (e : (programMachine K n).Event) : Prop := begins e.pre e.input = true

theorem event_stores (e : (programMachine K n).Event) : Stores e.pre e.input e.post :=
  moved_stores (programStep_moved e.fired)

variable {tr : List (programMachine K n).Event}

theorem init_calm (hs : (programMachine K n).init s) :
    (∀ todo, ¬s.Storing todo) ∧ ∀ f, s.flag f = false := by
  obtain ⟨-, -, hcp, hdp, hm, -, hh⟩ := hs
  refine ⟨fun todo => ?_, fun f => ?_⟩
  · simp [Program.Storing, hm, hh]
  · cases f with
    | cpQuit => exact hcp
    | dpQuit j => exact hdp j

theorem run_ordered (h : Machine.Run tr s) : s.Ordered :=
  Machine.Run.inv (fun _ hs todo htodo => absurd htodo ((init_calm hs).1 todo))
    (fun e => (event_stores e).ordered) h

theorem run_gone (h : Machine.Run tr s) : s.Gone := by
  refine Machine.Run.inv ?_ (fun e => moved_gone (programStep_moved e.fired)) h
  rintro s ⟨-, -, -, -, hm, hw, -⟩
  exact ⟨by simp [hm], fun j hj => by simp [hw] at hj, by simp [hm]⟩

theorem run_begun (h : Machine.Run tr s) :
    ((∃ f, s.flag f = true) ∨ ∃ todo, s.Storing todo) → ∃ e ∈ tr, Begins e := by
  refine Machine.Run.induct (P := fun tr s =>
    ((∃ f, s.flag f = true) ∨ ∃ todo, s.Storing todo) → ∃ e ∈ tr, Begins e) ?_ ?_ h
  · rintro s hs (⟨f, hf⟩ | ⟨todo, htodo⟩)
    · rw [(init_calm hs).2 f] at hf
      cases hf
    · exact absurd htodo ((init_calm hs).1 todo)
  · intro tr e _ ih hpost
    rcases (event_stores e).begun hpost with hpre | hb
    · obtain ⟨x, hx, hb⟩ := ih hpre
      exact ⟨x, List.mem_append_left _ hx, hb⟩
    · exact ⟨e, by simp, hb⟩

theorem run_stopping (h : Machine.Run tr s) (hb : ∃ e ∈ tr, Begins e) : s.Stopping := by
  refine Machine.Run.induct (P := fun tr s => (∃ e ∈ tr, Begins e) → s.Stopping) ?_ ?_ h hb
  · rintro s - ⟨e, he, -⟩
    cases he
  · rintro tr e hr ih ⟨x, hx, hb⟩
    refine (event_stores e).stopping (run_ordered hr) ?_
    rcases List.mem_append.mp hx with hx | hx
    · exact Or.inl (ih ⟨x, hx, hb⟩)
    · rw [List.mem_singleton.mp hx] at hb
      exact Or.inr hb

theorem run_flag_stays (h : Machine.Run tr s) :
    ∀ e ∈ tr, ∀ f, e.pre.flag f = true → s.flag f = true := by
  refine Machine.Run.induct (P := fun tr s => ∀ e ∈ tr, ∀ f, e.pre.flag f = true →
    s.flag f = true) (fun _ _ _ he => nomatch he) ?_ h
  intro tr e _ ih x hx f hf
  rcases List.mem_append.mp hx with hx | hx
  · exact (event_stores e).keeps (ih x hx f hf)
  · rw [List.mem_singleton.mp hx] at hf
    exact (event_stores e).keeps hf

/-- In every run: no flag is set and nobody is at setting them unless a signal has come or a
command `exit` has been carried out; once nobody is at it all are set, and a flag that is set
stays so; and no one leaves its loop before its flag is set, `main` last. -/
theorem stopped_iff (h : Machine.Run tr s) :
    ((∃ f, s.flag f = true) ∨ (∃ todo, s.Storing todo) ↔ ∃ e ∈ tr, Begins e) ∧ s.Ordered ∧
      ((∀ todo, ¬s.Storing todo) → ∀ f, s.flag f = true ↔ ∃ e ∈ tr, Begins e) ∧
      (∀ e ∈ tr, ∀ f, e.pre.flag f = true → s.flag f = true) ∧ s.Gone := by
  refine ⟨⟨run_begun h, fun hb => ?_⟩, run_ordered h, fun hno f => ⟨fun hf => run_begun h
    (Or.inl ⟨f, hf⟩), fun hb => ?_⟩, run_flag_stays h, run_gone h⟩
  · rcases run_stopping h hb with hstoring | hall
    · exact Or.inr hstoring
    · exact Or.inl ⟨.cpQuit, hall _⟩
  · rcases run_stopping h hb with ⟨todo, htodo⟩ | hall
    · exact absurd htodo (hno todo)
    · exact hall f

/-! ## What is read and what is carried out -/

/-- The lines read but not handed over yet. -/
def Program.pending (s : Program n) : List (Call Byte) :=
  match s.main with
  | .handling calls => calls
  | .exiting _ calls => calls
  | _ => []

/-- What is left of the burst of the worker `j`. -/
def Program.burst (s : Program n) (j : Fin (n + 1)) : List (Packet × Env) :=
  match s.workers j with
  | .receiving bufs => bufs
  | _ => []

def linesRead (s : Program n) : ProgramTurn n → List (Call Byte)
  | .main _ _ ev _ _ =>
    match s.main with
    | .polling => (pollTurn s ev).pending
    | _ => []
  | .worker _ _ => []
  | .handler _ => []
  | .signal => []

def linesCarried (s : Program n) : ProgramTurn n → List (Call Byte)
  | .main _ _ _ _ _ =>
    match s.main with
    | .handling (call :: _) => [call]
    | _ => []
  | .worker _ _ => []
  | .handler _ => []
  | .signal => []

def packetsRead (j : Fin (n + 1)) (s : Program n) : ProgramTurn n → List (Packet × Env)
  | .worker i bufs =>
    if i = j then
      match s.workers j with
      | .polling => bufs
      | _ => []
    else []
  | .main _ _ _ _ _ => []
  | .handler _ => []
  | .signal => []

def packetsCarried (j : Fin (n + 1)) (s : Program n) : ProgramTurn n → List (Packet × Env)
  | .worker i _ =>
    if i = j then
      match s.workers j with
      | .receiving (p :: _) => [p]
      | _ => []
    else []
  | .main _ _ _ _ _ => []
  | .handler _ => []
  | .signal => []

/-! ### Whose turn it is -/

theorem moved_main_same (h : ProgramMoved K s t s' out) (ht : turnOf t ≠ some .main) :
    s'.main = s.main := by
  cases h with
  | sets _ => exact store_main ..
  | _ => first | rfl | exact absurd rfl ht

theorem moved_worker_same {j : Fin (n + 1)} (h : ProgramMoved K s t s' out)
    (ht : turnOf t ≠ some (.worker j)) : s'.workers j = s.workers j := by
  have hne : ∀ {i : Fin (n + 1)}, turnOf t = some (.worker i) → j ≠ i := fun hi hj =>
    ht (hj ▸ hi)
  cases h with
  | stored _ => exact congrFun (store_workers ..) j
  | sets _ => exact congrFun (store_workers ..) j
  | exits _ _ => exact worker_ne s _ (hne rfl)
  | polls _ _ => exact worker_ne s _ (hne rfl)
  | takes _ => exact worker_ne s _ (hne rfl)
  | through _ => exact worker_ne s _ (hne rfl)
  | received _ _ => exact worker_ne s _ (hne rfl)
  | _ => rfl

theorem moved_lines (h : ProgramMoved K s t s' out) :
    linesCarried s t ++ s'.pending = s.pending ++ linesRead s t := by
  by_cases ht : turnOf t = some .main
  · cases h with
    | left hm _ => simp [linesCarried, linesRead, Program.pending, hm]
    | goesOn hm _ => simp [linesCarried, linesRead, Program.pending, hm]
    | accepted hm => simp [linesCarried, linesRead, Program.pending, hm]
    | polled hm hpoll => simp [linesCarried, linesRead, Program.pending, hm, hpoll]
    | handled hm => simp [linesCarried, linesRead, Program.pending, hm]
    | quit hm _ => simp [linesCarried, linesRead, Program.pending, hm]
    | carried hm _ _ => simp [linesCarried, linesRead, Program.pending, hm]
    | stored hm => simp [linesCarried, linesRead, Program.pending, hm]
    | allStored hm => simp [linesCarried, linesRead, Program.pending, hm]
    | joined hm _ => simp [linesCarried, linesRead, Program.pending, hm]
    | waits hm _ => simp [linesCarried, linesRead, hm]
    | returned hm => simp [linesCarried, linesRead, hm]
    | _ => cases ht
  · have hno : linesCarried s t = [] ∧ linesRead s t = [] := by
      cases t with
      | main _ _ _ _ _ => exact absurd rfl ht
      | _ => exact ⟨rfl, rfl⟩
    rw [hno.1, hno.2, List.append_nil, List.nil_append]
    unfold Program.pending
    rw [moved_main_same h ht]

theorem moved_packets (j : Fin (n + 1)) (h : ProgramMoved K s t s' out) :
    packetsCarried j s t ++ s'.burst j = s.burst j ++ packetsRead j s t := by
  by_cases ht : turnOf t = some (.worker j)
  · cases h with
    | exits hw _ =>
      cases ht
      simp [packetsCarried, packetsRead, Program.burst, hw]
    | polls hw _ =>
      cases ht
      simp [packetsCarried, packetsRead, Program.burst, hw]
    | takes hw =>
      cases ht
      simp [packetsCarried, packetsRead, Program.burst, hw]
    | through hw =>
      cases ht
      simp [packetsCarried, packetsRead, Program.burst, hw]
    | received hw _ =>
      cases ht
      simp [packetsCarried, packetsRead, Program.burst, hw]
    | exited hw =>
      cases ht
      simp [packetsCarried, packetsRead, Program.burst, hw]
    | _ => cases ht
  · have hno : packetsCarried j s t = [] ∧ packetsRead j s t = [] := by
      cases t with
      | worker i _ =>
        have hij : i ≠ j := fun hij => ht (by rw [hij]; rfl)
        exact ⟨if_neg hij, if_neg hij⟩
      | _ => exact ⟨rfl, rfl⟩
    rw [hno.1, hno.2, List.append_nil, List.nil_append]
    unfold Program.burst
    rw [moved_worker_same h ht]

/-- Only a command or a packet can be the end of the program. -/
theorem programStep_none (h : programStep K s t = none) :
    linesCarried s t ≠ [] ∨ ∃ j, packetsCarried j s t ≠ [] := by
  cases t with
  | main client ok ev env stale =>
    refine Or.inl fun hno => ?_
    simp only [programStep, mainTurn] at h
    simp only [linesCarried] at hno
    split at h
    · split at h <;> cases h
    · cases h
    · cases h
    · cases h
    · rename_i hm
      rw [hm] at hno
      cases hno
    · cases h
    · cases h
    · split at h <;> cases h
    · cases h
  | worker j bufs =>
    refine Or.inr ⟨j, fun hno => ?_⟩
    simp only [programStep, workerTurn] at h
    simp only [packetsCarried, if_pos] at hno
    split at h
    · cases h
    · cases h
    · cases h
    · rename_i hw
      rw [hw] at hno
      simp at hno
    · cases h
  | handler h' => cases h
  | signal => cases h

/-! ## No more than one look -/

def MainPoint.looks : MainPoint n → Nat
  | .accepting => 1
  | .polling => 1
  | _ => 0

def WorkerPoint.looks : WorkerPoint → Nat
  | .polling => 1
  | _ => 0

/-- A call of `epoll_wait`, and of `read` for what it finds. -/
def mainLooks (s : Program n) : ProgramTurn n → Bool
  | .main _ _ _ _ _ =>
    match s.main with
    | .polling => true
    | _ => false
  | .worker _ _ => false
  | .handler _ => false
  | .signal => false

/-- A call of `rte_eth_rx_burst`. -/
def workerLooks (j : Fin (n + 1)) (s : Program n) : ProgramTurn n → Bool
  | .worker i _ =>
    if i = j then
      match s.workers j with
      | .polling => true
      | _ => false
    else false
  | .main _ _ _ _ _ => false
  | .handler _ => false
  | .signal => false

theorem moved_main_looks (h : ProgramMoved K s t s' out) (hq : s.cpQuit = true) :
    s'.main.looks + (if mainLooks s t then 1 else 0) ≤ s.main.looks := by
  by_cases ht : turnOf t = some .main
  · cases h with
    | left hm _ => simp [mainLooks, MainPoint.looks, hm]
    | goesOn _ hno => cases hno.symm.trans hq
    | accepted hm => simp [mainLooks, MainPoint.looks, hm]
    | polled hm _ => simp [mainLooks, MainPoint.looks, hm]
    | handled hm => simp [mainLooks, MainPoint.looks, hm]
    | quit hm _ => simp [mainLooks, MainPoint.looks, hm]
    | carried hm _ _ => simp [mainLooks, MainPoint.looks, hm]
    | stored hm => simp [mainLooks, MainPoint.looks, hm]
    | allStored hm => simp [mainLooks, MainPoint.looks, hm]
    | joined hm _ => simp [mainLooks, MainPoint.looks, hm]
    | waits hm _ => simp [mainLooks, hm]
    | returned hm => simp [mainLooks, hm]
    | _ => cases ht
  · have hno : mainLooks s t = false := by
      cases t with
      | main _ _ _ _ _ => exact absurd rfl ht
      | _ => rfl
    rw [moved_main_same h ht, hno]
    exact Nat.le_refl _

theorem moved_worker_looks {j : Fin (n + 1)} (h : ProgramMoved K s t s' out)
    (hq : s.dpQuit j = true) :
    (s'.workers j).looks + (if workerLooks j s t then 1 else 0) ≤ (s.workers j).looks := by
  by_cases ht : turnOf t = some (.worker j)
  · cases h with
    | exits hw _ =>
      cases ht
      simp [workerLooks, WorkerPoint.looks, hw]
    | polls _ hno =>
      cases ht
      cases hno.symm.trans hq
    | takes hw =>
      cases ht
      simp [workerLooks, WorkerPoint.looks, hw]
    | through hw =>
      cases ht
      simp [workerLooks, WorkerPoint.looks, hw]
    | received hw _ =>
      cases ht
      simp [workerLooks, WorkerPoint.looks, hw]
    | exited hw =>
      cases ht
      simp [workerLooks, hw]
    | _ => cases ht
  · have hno : workerLooks j s t = false := by
      cases t with
      | worker i _ => exact if_neg fun hij => ht (by rw [hij]; rfl)
      | _ => rfl
    rw [moved_worker_same h ht, hno]
    exact Nat.le_refl _

/-! ## How much is left -/

/-- How many turns `main` has still to take; before its flag is set it can go round for ever. -/
def MainPoint.left (quit : Bool) : MainPoint n → Nat
  | .testing => if quit then 2 else 5
  | .accepting => 5
  | .polling => if quit then 4 else 5
  | .handling calls => (if quit then 3 else 5) + (n + 4) * calls.length
  | .exiting todo calls => (if quit then 3 else 5) + (n + 4) * calls.length + (todo.length + 1)
  | .joining => 1
  | .returned => 0

def WorkerPoint.left (quit : Bool) : WorkerPoint → Nat
  | .testing => if quit then 1 else 3
  | .polling => 3
  | .receiving bufs => (if quit then 2 else 3) + bufs.length
  | .exited => 0

def handlersLeft (handlers : List (List (Flag n))) : Nat :=
  (handlers.map fun todo => todo.length + 1).sum

def Program.left (s : Program n) : Nat :=
  s.main.left s.cpQuit + ∑ j, (s.workers j).left (s.dpQuit j) + handlersLeft s.handlers

/-- What a turn adds: a line may be the command `exit`. -/
def added (s : Program n) : ProgramTurn n → Nat
  | .main client ok ev env stale => (n + 4) * (linesRead s (.main client ok ev env stale)).length
  | .worker j bufs => (packetsRead j s (.worker j bufs)).length
  | .handler _ => 0
  | .signal => n + 3

/-- Who can go on, towards the end. -/
def Program.Due (s : Program n) : Actor n → Prop
  | .main => s.main ≠ .returned ∧ (s.main = .joining → ∀ j, (s.workers j).gone = true) ∧
      (s.cpQuit = true ∨ ∃ todo calls, s.main = .exiting todo calls)
  | .worker j => s.dpQuit j = true ∧ (s.workers j).gone = false
  | .handler => s.handlers ≠ []

theorem MainPoint.left_mono (m : MainPoint n) {q q' : Bool} (h : q = true → q' = true) :
    m.left q' ≤ m.left q := by
  cases q with
  | true => rw [h rfl]
  | false => cases m <;> cases q' <;> simp [MainPoint.left]

theorem WorkerPoint.left_mono (w : WorkerPoint) {q q' : Bool} (h : q = true → q' = true) :
    w.left q' ≤ w.left q := by
  cases q with
  | true => rw [h rfl]
  | false => cases w <;> cases q' <;> simp [WorkerPoint.left]

theorem store_left (s : Program n) (f : Flag n) (m : MainPoint n) :
    m.left (s.store f).cpQuit ≤ m.left s.cpQuit ∧
      ∑ j, ((s.store f).workers j).left ((s.store f).dpQuit j) ≤
        ∑ j, (s.workers j).left (s.dpQuit j) := by
  have keeps : ∀ g, s.flag g = true → (s.store f).flag g = true := fun g hg =>
    (flag_store s f g).mpr (Or.inr hg)
  refine ⟨m.left_mono (keeps .cpQuit), Finset.sum_le_sum fun j _ => ?_⟩
  rw [store_workers]
  exact (s.workers j).left_mono (keeps (.dpQuit j))

theorem worker_left (s : Program n) (j : Fin (n + 1)) (w : WorkerPoint) :
    (s.worker j w).left + (s.workers j).left (s.dpQuit j) = s.left + w.left (s.dpQuit j) := by
  have h := Network.sum_update (fun j (w : WorkerPoint) => w.left (s.dpQuit j)) s.workers j w
  unfold Program.left Program.worker
  dsimp only at h ⊢
  omega

theorem handlers_left {l : List (List (Flag n))} {i : Nat} {todo : List (Flag n)}
    (h : l[i]? = some todo) : handlersLeft (l.eraseIdx i) + (todo.length + 1) = handlersLeft l ∧
      ∀ x : List (Flag n), handlersLeft (l.set i x) = handlersLeft (l.eraseIdx i) + (x.length + 1) := by
  obtain ⟨hlt, rfl⟩ := List.getElem?_eq_some_iff.mp h
  have hold := ((List.getElem_cons_eraseIdx_perm hlt).map fun todo => todo.length + 1).sum_eq
  have hnew : ∀ x, _ := fun x : List (Flag n) =>
    ((List.set_perm_cons_eraseIdx hlt x).map fun todo => todo.length + 1).sum_eq
  simp only [List.map_cons, List.sum_cons] at hold hnew
  unfold handlersLeft
  exact ⟨by omega, fun x => by rw [hnew x]; omega⟩

theorem le_and_lt {p : Prop} {a b : Nat} (hlt : a < b) : a ≤ b ∧ (p → a < b) :=
  ⟨Nat.le_of_lt hlt, fun _ => hlt⟩

/-- Before its flag is set `main` is due in `exit` only. -/
theorem round_left {d : Nat} (hno : ∀ todo calls, s.main ≠ .exiting todo calls)
    (hsame : s'.cpQuit = s.cpQuit) (hfalse : s'.main.left false ≤ s.main.left false + d)
    (htrue : s'.main.left true < s.main.left true + d) :
    s'.main.left s'.cpQuit ≤ s.main.left s.cpQuit + d ∧
      (s.Due .main → s'.main.left s'.cpQuit < s.main.left s.cpQuit + d) := by
  cases hq : s.cpQuit with
  | true =>
    rw [hsame, hq]
    exact le_and_lt htrue
  | false =>
    rw [hsame, hq]
    refine ⟨hfalse, fun hdue => ?_⟩
    obtain ⟨-, -, hset | ⟨todo, calls, hm⟩⟩ := hdue
    · cases hset.symm.trans hq
    · exact absurd hm (hno todo calls)

theorem added_polled {client ok : Bool} {ev : Option PanelEvent} {env : Env}
    {stale : Nat → List Byte} {panel : Panel Byte} {calls : List (Call Byte)}
    (hm : s.main = .polling) (hpoll : pollTurn s ev = { s with panel, main := .handling calls }) :
    added s (.main client ok ev env stale) = (n + 4) * calls.length := by
  simp [added, linesRead, hm, hpoll, Program.pending]

theorem main_point_left (h : ProgramMoved K s t s' out) (ht : turnOf t = some .main) :
    s'.main.left s'.cpQuit ≤ s.main.left s.cpQuit + added s t ∧
      (s.Due .main → s'.main.left s'.cpQuit < s.main.left s.cpQuit + added s t) := by
  cases h with
  | left hm hq =>
    refine le_and_lt ?_
    simp only [hm, hq, MainPoint.left, if_true]
    omega
  | goesOn hm hq =>
    refine ⟨?_, fun hdue => ?_⟩
    · simp [hm, hq, MainPoint.left]
    · simp [Program.Due, hm, hq] at hdue
  | accepted hm =>
    refine round_left (by simp [hm]) rfl ?_ ?_
    · simp [hm, MainPoint.left]
    · simp only [hm, MainPoint.left, if_true]
      omega
  | polled hm hpoll =>
    refine round_left (by simp [hm]) rfl ?_ ?_
    · rw [added_polled hm hpoll]
      simp [hm, MainPoint.left]
    · rw [added_polled hm hpoll]
      simp only [hm, MainPoint.left, if_true]
      omega
  | handled hm =>
    refine round_left (by simp [hm]) rfl ?_ ?_
    · simp [hm, MainPoint.left]
    · simp only [hm, MainPoint.left, if_true]
      omega
  | quit hm _ =>
    refine le_and_lt ?_
    simp only [hm, MainPoint.left, exitCommand, List.length_cons, List.length_append, List.length_map,
      List.length_finRange, List.length_nil, Nat.mul_add]
    omega
  | carried hm _ _ =>
    refine le_and_lt ?_
    simp only [hm, MainPoint.left, List.length_cons, Nat.mul_add]
    omega
  | @stored _ _ _ _ _ f todo calls hm =>
    have hle := (store_left s f (.exiting todo calls)).1
    refine le_and_lt (Nat.lt_of_le_of_lt hle ?_)
    simp only [hm, MainPoint.left, List.length_cons]
    omega
  | allStored hm =>
    refine le_and_lt ?_
    simp only [hm, MainPoint.left, List.length_nil]
    omega
  | joined hm _ =>
    refine le_and_lt ?_
    simp only [hm, MainPoint.left]
    omega
  | waits hm hgone => exact ⟨Nat.le_add_right .., fun hdue => absurd (hdue.2.1 hm) hgone⟩
  | returned hm => exact ⟨Nat.le_add_right .., fun hdue => absurd hm hdue.1⟩
  | _ => cases ht

theorem main_left (h : ProgramMoved K s t s' out) (ht : turnOf t = some .main) :
    s'.left ≤ s.left + added s t ∧ (s.Due .main → s'.left < s.left + added s t) := by
  have hrest : ∑ j, (s'.workers j).left (s'.dpQuit j) ≤ ∑ j, (s.workers j).left (s.dpQuit j) ∧
      s'.handlers = s.handlers := by
    cases h with
    | @stored _ _ _ _ _ f todo calls _ => exact ⟨(store_left s f .returned).2, store_handlers s f⟩
    | _ => first | exact ⟨Nat.le_refl _, rfl⟩ | cases ht
  obtain ⟨hle, hlt⟩ := main_point_left h ht
  unfold Program.left
  rw [hrest.2]
  exact ⟨by omega, fun hdue => by have := hlt hdue; omega⟩

theorem worker_round_left {j : Fin (n + 1)} {w : WorkerPoint} {d : Nat}
    (hfalse : w.left false ≤ (s.workers j).left false + d)
    (htrue : w.left true < (s.workers j).left true + d) :
    (s.worker j w).left ≤ s.left + d ∧ (s.Due (.worker j) → (s.worker j w).left < s.left + d) := by
  have h := worker_left s j w
  cases hq : s.dpQuit j with
  | true =>
    rw [hq] at h
    exact le_and_lt (by omega)
  | false =>
    rw [hq] at h
    exact ⟨by omega, fun hdue => by cases hdue.1.symm.trans hq⟩

theorem worker_turn_left {j : Fin (n + 1)} (h : ProgramMoved K s t s' out)
    (ht : turnOf t = some (.worker j)) :
    s'.left ≤ s.left + added s t ∧ (s.Due (.worker j) → s'.left < s.left + added s t) := by
  cases h with
  | exits hw hq =>
    cases ht
    have h := worker_left s j .exited
    simp only [hw, hq, WorkerPoint.left, if_true] at h
    exact le_and_lt (by omega)
  | polls hw hq =>
    cases ht
    have h := worker_left s j .polling
    simp only [hw, hq, WorkerPoint.left] at h
    refine ⟨?_, fun hdue => by cases hdue.1.symm.trans hq⟩
    simp only [Bool.false_eq_true, if_false] at h
    omega
  | @takes _ bufs hw =>
    cases ht
    have hadded : added s (.worker j bufs) = bufs.length := by simp [added, packetsRead, hw]
    rw [hadded]
    refine worker_round_left ?_ ?_
    · simp [hw, WorkerPoint.left]
    · simp only [hw, WorkerPoint.left, if_true]
      omega
  | through hw =>
    cases ht
    refine worker_round_left ?_ ?_
    · simp [hw, WorkerPoint.left]
    · simp only [hw, WorkerPoint.left, if_true]
      omega
  | @received _ bufs _ _ rest _ _ hw _ =>
    cases ht
    have h := worker_round_left (s := s) (j := j) (w := .receiving rest)
      (d := added s (.worker j bufs)) ?_ ?_
    · exact h
    · simp only [hw, WorkerPoint.left, List.length_cons]
      omega
    · simp only [hw, WorkerPoint.left, List.length_cons]
      omega
  | exited hw =>
    cases ht
    refine ⟨Nat.le_add_right .., fun hdue => ?_⟩
    have hgone := hdue.2
    rw [hw] at hgone
    cases hgone
  | _ => cases ht

theorem handler_turn_left (h : ProgramMoved K s t s' out) (ht : turnOf t = some .handler) :
    s'.left ≤ s.left + added s t ∧ (s.Due .handler → s'.left < s.left + added s t) := by
  cases h with
  | @sets h' i f todo hi =>
    obtain ⟨hmain, hworkers⟩ := store_left s f s.main
    obtain ⟨hold, hnew⟩ := handlers_left hi
    have hset := hnew todo
    rw [List.length_cons] at hold
    refine le_and_lt ?_
    unfold Program.left
    simp only [store_main] at hmain ⊢
    omega
  | handlerReturns hi =>
    have hold := (handlers_left hi).1
    refine le_and_lt ?_
    unfold Program.left
    dsimp only
    omega
  | noHandler hno => exact ⟨Nat.le_add_right .., fun hdue => absurd hno hdue⟩
  | _ => cases ht

theorem signal_left (h : ProgramMoved K s t s' out) (ht : turnOf t = none) :
    s'.left ≤ s.left + added s t := by
  cases h with
  | signalled =>
    have hsum : handlersLeft (s.handlers ++ [exitStats]) = handlersLeft s.handlers + (n + 3) := by
      simp [handlersLeft, exitStats]
    unfold Program.left
    rw [hsum]
    exact Nat.le_of_eq (Nat.add_assoc ..).symm
  | _ => cases ht

theorem moved_left (h : ProgramMoved K s t s' out) : s'.left ≤ s.left + added s t ∧
    ∀ a, turnOf t = some a → s.Due a → s'.left < s.left + added s t := by
  cases ht : turnOf t with
  | none => exact ⟨signal_left h ht, fun _ ha => nomatch ha⟩
  | some a =>
    have hleft : s'.left ≤ s.left + added s t ∧ (s.Due a → s'.left < s.left + added s t) := by
      cases a with
      | main => exact main_left h ht
      | worker j => exact worker_turn_left h ht
      | handler => exact handler_turn_left h ht
    refine ⟨hleft.1, fun a ha => ?_⟩
    cases ha
    exact hleft.2

theorem moved_stays_gone {j : Fin (n + 1)} (h : ProgramMoved K s t s' out)
    (hj : (s.workers j).gone = true) : (s'.workers j).gone = true := by
  by_cases ht : turnOf t = some (.worker j)
  · rw [gone_iff] at hj
    cases h with
    | exited _ => exact gone_iff.mpr hj
    | exits hw _ =>
      cases ht
      cases hw.symm.trans hj
    | polls hw _ =>
      cases ht
      cases hw.symm.trans hj
    | takes hw =>
      cases ht
      cases hw.symm.trans hj
    | through hw =>
      cases ht
      cases hw.symm.trans hj
    | received hw _ =>
      cases ht
      cases hw.symm.trans hj
    | _ => cases ht
  · rw [moved_worker_same h ht]
    exact hj

theorem moved_handlers (h : ProgramMoved K s t s' out) (ht : turnOf t ≠ some .handler)
    (hs : s.handlers ≠ []) : s'.handlers ≠ [] := by
  cases h with
  | stored _ => exact fun hno => hs ((store_handlers s _).symm.trans hno)
  | signalled => exact List.append_ne_nil_of_left_ne_nil hs _
  | _ => first | exact hs | exact absurd rfl ht

theorem moved_waits (h : ProgramMoved K s t s' out) {a : Actor n} (ht : turnOf t ≠ some a)
    (hdue : s.Due a) : s'.Due a := by
  have keeps : ∀ f, s.flag f = true → s'.flag f = true := fun _ => (moved_stores h).keeps
  cases a with
  | main =>
    obtain ⟨hne, hgone, hset⟩ := hdue
    show s'.main ≠ .returned ∧ (s'.main = .joining → ∀ j, (s'.workers j).gone = true) ∧
      (s'.cpQuit = true ∨ ∃ todo calls, s'.main = .exiting todo calls)
    rw [moved_main_same h ht]
    refine ⟨hne, fun hm j => ?_, hset.imp_left (keeps .cpQuit)⟩
    exact moved_stays_gone h (hgone hm j)
  | worker j =>
    obtain ⟨hset, hgone⟩ := hdue
    refine ⟨keeps (.dpQuit j) hset, ?_⟩
    rw [moved_worker_same h ht]
    exact hgone
  | handler => exact moved_handlers h ht hdue

theorem someone_due (hs : s.Stopping) (hm : s.main ≠ .returned) : ∃ a, s.Due a := by
  rcases hs with ⟨todo, hh | ⟨calls, hx⟩⟩ | hall
  · exact ⟨.handler, List.ne_nil_of_mem hh⟩
  · exact ⟨.main, hm, by simp [hx], Or.inr ⟨todo, calls, hx⟩⟩
  · by_cases hgone : ∀ j, (s.workers j).gone = true
    · exact ⟨.main, hm, fun _ => hgone, Or.inl (hall .cpQuit)⟩
    · obtain ⟨j, hj⟩ := not_forall.mp hgone
      exact ⟨.worker j, hall (.dpQuit j), Bool.eq_false_iff.mpr hj⟩

theorem moved_returned (h : ProgramMoved K s t s' out) (hm : s.main = .returned) :
    s'.main = .returned := by
  by_cases ht : turnOf t = some .main
  · cases h with
    | returned _ => exact hm
    | left hm' _ => cases hm'.symm.trans hm
    | goesOn hm' _ => cases hm'.symm.trans hm
    | accepted hm' => cases hm'.symm.trans hm
    | polled hm' _ => cases hm'.symm.trans hm
    | handled hm' => cases hm'.symm.trans hm
    | quit hm' _ => cases hm'.symm.trans hm
    | carried hm' _ _ => cases hm'.symm.trans hm
    | stored hm' => cases hm'.symm.trans hm
    | allStored hm' => cases hm'.symm.trans hm
    | joined hm' _ => cases hm'.symm.trans hm
    | waits hm' _ => cases hm'.symm.trans hm
    | _ => cases ht
  · rw [moved_main_same h ht]
    exact hm

variable (K) in
theorem program_winds : Rounds.Winds (programMachine K n) turnOf
    (fun s => s.Ordered ∧ s.Stopping) (fun s => s.main = .returned) Program.left added
    Program.Due where
  keeps e hs := ⟨(event_stores e).ordered hs.1, (event_stores e).stopping hs.1 (Or.inl hs.2)⟩
  stays e hm := moved_returned (programStep_moved e.fired) hm
  le e _ := (moved_left (programStep_moved e.fired)).1
  zero {s} _ h0 := by
    unfold Program.left at h0
    have hm : s.main.left s.cpQuit = 0 := by omega
    cases hmain : s.main with
    | returned => rfl
    | testing => cases hq : s.cpQuit <;> simp [hmain, hq, MainPoint.left] at hm
    | polling => cases hq : s.cpQuit <;> simp [hmain, hq, MainPoint.left] at hm
    | handling calls => cases hq : s.cpQuit <;> simp [hmain, hq, MainPoint.left] at hm
    | _ => simp [hmain, MainPoint.left] at hm
  someone hs hm := someone_due hs.2 hm
  lowers {e a} _ ha hdue := (moved_left (programStep_moved e.fired)).2 a ha hdue
  waits {e a} _ ha hdue := moved_waits (programStep_moved e.fired) ha hdue

/-! ## Winding down -/

/-- From `s` on, what is read is carried out in the order it was read, the lines as commands
and the packets by their core, but for what `u` has still before it. -/
structure CarriesOut (s : Program n) (xs : List (programMachine K n).Event) (u : Program n) :
    Prop where
  lines : (xs.flatMap fun e => linesCarried e.pre e.input) ++ u.pending =
    s.pending ++ xs.flatMap fun e => linesRead e.pre e.input
  packets : ∀ j, (xs.flatMap fun e => packetsCarried j e.pre e.input) ++ u.burst j =
    s.burst j ++ xs.flatMap fun e => packetsRead j e.pre e.input
  steps : ∀ e ∈ xs, Stepped K e.pre.cores (fun j => coreInput j e.pre e.input) e.post.cores e.out

/-- A loop whose flag is set looks once more for something to read if it is past its test, and
not at all if it is not. -/
structure LooksOnce (s : Program n) (xs : List (programMachine K n).Event) : Prop where
  main : s.cpQuit = true → xs.countP (fun e => mainLooks e.pre e.input) ≤ s.main.looks
  workers : ∀ j, s.dpQuit j = true →
    xs.countP (fun e => workerLooks j e.pre e.input) ≤ (s.workers j).looks

theorem path_carriesOut {xs : List (programMachine K n).Event} {u : Program n}
    (hp : Machine.Path s xs u) : CarriesOut s xs u where
  lines := Machine.path_queue _ (fun e => moved_lines (programStep_moved e.fired)) hp
  packets j := Machine.path_queue (fun s => s.burst j)
    (fun e => moved_packets j (programStep_moved e.fired)) hp
  steps e _ := event_stepped e

theorem path_looksOnce {xs : List (programMachine K n).Event} {u : Program n}
    (hp : Machine.Path s xs u) : LooksOnce s xs where
  main hset := by
    have hle := Machine.path_countP (fun s => s.main.looks) (P := fun s => s.cpQuit = true)
      (fun e hset => ⟨(event_stores e).keeps (f := .cpQuit) hset,
        moved_main_looks (programStep_moved e.fired) hset⟩) hp hset
    exact Nat.le_trans (Nat.le_add_left ..) hle
  workers j hset := by
    have hle := Machine.path_countP (fun s => (s.workers j).looks) (P := fun s => s.dpQuit j = true)
      (fun e hset => ⟨(event_stores e).keeps (f := .dpQuit j) hset,
        moved_worker_looks (programStep_moved e.fired) hset⟩) hp hset
    exact Nat.le_trans (Nat.le_add_left ..) hle

/-- Once a signal has come or a command `exit` has been begun, whatever turns are taken after:
what has been read and what is still read is carried out in its order; each loop looks at most
once more after its flag is set; only a command or a packet can be the end of the program; and
if none is, `main` returns, after all the workers, after as many rounds of turns as there are
steps left, those for what is still read counted in, and then nothing that was read is left. -/
theorem winds_down {tr xs : List (programMachine K n).Event} {u : Program n}
    (h : Machine.Run tr s) (hb : ∃ e ∈ tr, Begins e) (hp : Machine.Path s xs u) :
    CarriesOut s xs u ∧ LooksOnce s xs ∧
      (∀ t, programStep K u t = none → linesCarried u t ≠ [] ∨ ∃ j, packetsCarried j u t ≠ []) ∧
      ∀ rounds, xs = List.flatten rounds → (∀ r ∈ rounds, Rounds.Full turnOf r) →
        s.left + Rounds.allAdded added xs ≤ rounds.length →
        u.main = .returned ∧ (∀ j, u.workers j = .exited) ∧ u.pending = [] ∧ ∀ j, u.burst j = [] := by
  refine ⟨path_carriesOut hp, path_looksOnce hp, fun t => programStep_none,
    fun rounds hr hfull hle => ?_⟩
  subst hr
  have hm := (program_winds K).ends hp ⟨run_ordered h, run_stopping h hb⟩ hfull hle
  obtain ⟨s₀, h0, hp₀⟩ := h
  have hgone := (run_gone ⟨s₀, h0, Machine.path_append.mpr ⟨s, hp₀, hp⟩⟩).joined hm
  refine ⟨hm, hgone, ?_, fun j => ?_⟩
  · simp [Program.pending, hm]
  · simp [Program.burst, hgone j]

end

/-! ## On the host -/

/-- The command `exit`, its two stores, and a signal while it is at them. -/
theorem stopped_iff_exit : ∃ (tr : List (programMachine rfcCksum 0).Event) (s : Program 0),
    Machine.Run tr s ∧ s.dpQuit 0 = true ∧ s.cpQuit = false ∧ (∃ e ∈ tr, Begins e) ∧
      s.Ordered ∧ s.Gone := by
  obtain ⟨tr, s, hr, hQ⟩ := Machine.exists_run (programHost_init rfcCksum)
    (mainReads "exit\n" ++ [mainTakes none, mainTakes none, .signal])
    (Q := fun r => r.2.dpQuit 0 && !r.2.cpQuit) (by decide +kernel)
  rw [Bool.and_eq_true, Bool.not_eq_true'] at hQ
  obtain ⟨hbegun, hordered, -, -, hgone⟩ := stopped_iff hr
  exact ⟨tr, s, hr, hQ.1, hQ.2, hbegun.mp (Or.inl ⟨.dpQuit 0, hQ.1⟩), hordered, hgone⟩

/-- A command and a SYN are under way when a signal comes. -/
def stopsAtWork : List (ProgramTurn 0) :=
  mainReads "connect 10.0.0.2 40000\n" ++ [.worker (Fin.last 0) [],
    .worker (Fin.last 0) [(peerPacket rteTcpSynFlag 0 0 [], calm)], .signal]

def everyonesTurn : List (ProgramTurn 0) := [mainTakes none, .worker (Fin.last 0) [], .handler 0]

theorem winds_down_signal : ∃ (tr xs : List (programMachine rfcCksum 0).Event) (s u : Program 0),
    Machine.Run tr s ∧ s.pending.length = 1 ∧ (s.burst 0).length = 1 ∧ CarriesOut s xs u ∧
      (xs.map fun e => e.out.frames.length).sum = 2 ∧ u.main = .returned := by
  obtain ⟨⟨tr, s⟩, hr, hQ⟩ := (Option.any_eq_true ..).mp
    (show ((programMachine rfcCksum 0).replay programHost stopsAtWork).any (fun r =>
      r.2.pending.length = 1 ∧ (r.2.burst 0).length = 1 ∧ r.2.handlers.length = 1 ∧
      ((programMachine rfcCksum 0).replay r.2 (List.replicate 16 everyonesTurn).flatten).any fun q =>
        r.2.left + Rounds.allAdded added q.1 ≤ 16 ∧
          (q.1.map fun e => e.out.frames.length).sum = 2) = true by
      decide +kernel)
  obtain ⟨hpending, hburst, hhandlers, hQ⟩ := of_decide_eq_true hQ
  obtain ⟨⟨xs, u⟩, hx, hQ⟩ := (Option.any_eq_true ..).mp hQ
  obtain ⟨hleft, hframes⟩ := of_decide_eq_true hQ
  have hrun : Machine.Run tr s := ⟨_, programHost_init rfcCksum, Machine.replay_path hr⟩
  obtain ⟨todo, htodo⟩ := List.length_eq_one_iff.mp hhandlers
  have hmem : todo ∈ s.handlers := htodo ▸ List.mem_singleton_self todo
  have hbegun := run_begun hrun (Or.inr ⟨todo, Or.inl hmem⟩)
  have hturns : ∀ is ∈ List.replicate 16 everyonesTurn, ∀ a, ∃ i ∈ is, turnOf i = some a := by
    intro is his a
    rw [List.eq_of_mem_replicate his]
    cases a with
    | main => exact ⟨mainTakes none, by simp [everyonesTurn], rfl⟩
    | worker j => exact ⟨.worker (Fin.last 0) [], by simp [everyonesTurn], by rw [Fin.eq_zero j]; rfl⟩
    | handler => exact ⟨.handler 0, by simp [everyonesTurn], rfl⟩
  obtain ⟨rounds, hrounds, hlen, hfull⟩ :=
    Rounds.full_of_inputs (Machine.replay_inputs hx) hturns
  rw [List.length_replicate] at hlen
  have hdown := winds_down hrun hbegun (Machine.replay_path hx)
  exact ⟨tr, xs, s, u, hrun, hpending, hburst, hdown.1, hframes,
    (hdown.2.2.2 rounds hrounds hfull (hlen ▸ hleft)).1⟩

end TcpDpdk
