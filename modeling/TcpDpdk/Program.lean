import TcpDpdk.CliProcess

/-!
# The whole program

`main` polls the control panel and carries out the lines it is given, the workers take
bursts from their queues, and signals come in between. A turn is one test of a flag, one
store to one, one look at the sockets or the queue, one command or one packet: a command
and a packet are taken to be carried out undisturbed. `program_core` says that each core
of the program, seen by itself, then makes a run of the machine of one core.
-/

namespace TcpDpdk

inductive Flag (n : Nat) where
  | cpQuit
  | dpQuit (j : Fin (n + 1))
  deriving DecidableEq

inductive MainPoint (n : Nat) where
  /-- at the head of the loop -/
  | testing
  /-- in `conn_poll_for_conn` -/
  | accepting
  /-- in `conn_poll_for_msg` -/
  | polling
  /-- in `data_event_handle`, with the lines it has still to hand over -/
  | handling (calls : List (Call Byte))
  /-- in the command `exit`, with the flags it has still to set -/
  | exiting (todo : List (Flag n)) (calls : List (Call Byte))
  /-- in `rte_eal_mp_wait_lcore` -/
  | joining
  | returned

inductive WorkerPoint where
  | testing
  /-- in `rte_eth_rx_burst` -/
  | polling
  /-- in the loop over a burst, with what is left of it -/
  | receiving (bufs : List (Packet × Env))
  | exited

def WorkerPoint.gone : WorkerPoint → Bool
  | .exited => true
  | _ => false

structure Program (n : Nat) where
  panel : Panel Byte
  cores : TcpList n
  cpQuit : Bool
  dpQuit : Fin (n + 1) → Bool
  main : MainPoint n
  workers : Fin (n + 1) → WorkerPoint
  /-- the calls of `exit_stats` under way, each with the flags it has still to set -/
  handlers : List (List (Flag n))

/-- What a turn finds: the sockets, the memory and the queue are the world's. -/
inductive ProgramTurn (n : Nat) where
  | main (client ok : Bool) (ev : Option PanelEvent) (env : Env) (stale : Nat → List Byte)
  | worker (j : Fin (n + 1)) (bufs : List (Packet × Env))
  /-- of one of the handlers under way, whichever -/
  | handler (h : Nat)
  | signal

section
variable {n : Nat}

/-- `exit_stats` -/
def exitStats : List (Flag n) := .cpQuit :: (List.finRange (n + 1)).map .dpQuit

/-- What the command `exit` does -/
def exitCommand : List (Flag n) := (List.finRange (n + 1)).map .dpQuit ++ [.cpQuit]

def Program.flag (s : Program n) : Flag n → Bool
  | .cpQuit => s.cpQuit
  | .dpQuit j => s.dpQuit j

def Program.store (s : Program n) : Flag n → Program n
  | .cpQuit => { s with cpQuit := true }
  | .dpQuit j => { s with dpQuit := Function.update s.dpQuit j true }

def pollTurn (s : Program n) (ev : Option PanelEvent) : Program n :=
  match ev with
  | none => { s with main := .handling [] } -- `epoll_wait` returns 0
  | some ev =>
    let (panel, out) := connPollForMsg s.panel ev
    { s with panel, main := .handling out.calls }

/-- `flow` prints the connection it finds; `start` finds no lcore waiting for work. -/
def cliTurn (K : RteCksum) (env : Env) (s : Program n) (calls : List (Call Byte)) :
    Action → Option (Program n × Out)
  | .quit => some ({ s with main := .exiting exitCommand calls }, {})
  | .onFlow .flow q =>
    match lookFlow s.cores { q with pad := env.pad } with
    | none => some ({ s with main := .handling calls }, {})
    | some (j, p) => ((s.cores j).heap.read p).map fun _ => ({ s with main := .handling calls }, {})
  | action =>
    match cliExecute K env s.cores action with
    | .error _ => none
    | .ok done =>
      some ({ s with main := .handling calls, cores := done.cores }, { frames := done.frames })

def mainTurn (K : RteCksum) (s : Program n) (client ok : Bool) (ev : Option PanelEvent) (env : Env)
    (stale : Nat → List Byte) : Option (Program n × Out) :=
  match s.main with
  | .testing =>
    if s.cpQuit then some ({ s with main := .joining }, {}) -- after `conn_free`
    else some ({ s with main := .accepting }, {})
  | .accepting =>
    some ({ s with panel := (connPollForConn s.panel client ok).1, main := .polling }, {})
  | .polling => some (pollTurn s ev, {})
  | .handling [] => some ({ s with main := .testing }, {})
  | .handling (call :: calls) => cliTurn K env s calls (cliAction stale call.msgIn)
  | .exiting [] calls => some ({ s with main := .handling calls }, {})
  | .exiting (f :: todo) calls => some ({ s.store f with main := .exiting todo calls }, {})
  | .joining =>
    if ∀ j, (s.workers j).gone = true then some ({ s with main := .returned }, {})
    else some (s, {})
  | .returned => some (s, {})

def Program.worker (s : Program n) (j : Fin (n + 1)) (w : WorkerPoint) : Program n :=
  { s with workers := Function.update s.workers j w }

@[simp] theorem worker_self (s : Program n) (j : Fin (n + 1)) (w : WorkerPoint) :
    (s.worker j w).workers j = w := Function.update_self ..

theorem worker_ne (s : Program n) {j x : Fin (n + 1)} (w : WorkerPoint) (hx : x ≠ j) :
    (s.worker j w).workers x = s.workers x := Function.update_of_ne hx ..

def workerTurn (K : RteCksum) (s : Program n) (j : Fin (n + 1)) (bufs : List (Packet × Env)) :
    Option (Program n × Out) :=
  match s.workers j with
  | .testing => some (s.worker j (if s.dpQuit j then .exited else .polling), {})
  | .polling => some (s.worker j (.receiving bufs), {})
  | .receiving [] => some (s.worker j .testing, {})
  | .receiving ((p, env) :: rest) =>
    (tcpRxPacket K env (s.cores j) p).map fun (k, out) =>
      ({ s.worker j (.receiving rest) with cores := Function.update s.cores j k }, out)
  | .exited => some (s, {})

def handlerTurn (s : Program n) (h : Nat) : Program n :=
  let i := h % s.handlers.length
  match s.handlers[i]? with
  | none => s
  | some [] => { s with handlers := s.handlers.eraseIdx i }
  | some (f :: todo) => { s.store f with handlers := s.handlers.set i todo }

def programStep (K : RteCksum) (s : Program n) : ProgramTurn n → Option (Program n × Out)
  | .main client ok ev env stale => mainTurn K s client ok ev env stale
  | .worker j bufs => workerTurn K s j bufs
  | .handler h => some (handlerTurn s h, {})
  | .signal => some ({ s with handlers := s.handlers ++ [exitStats] }, {})

/-- As `config_init` and `conn_init` leave it. -/
def programMachine (K : RteCksum) (n : Nat) : Machine (Program n) (ProgramTurn n) Out where
  init s := (∃ nic, ∀ j, ∃ last, s.cores j = initializeTcp nic last) ∧ s.panel = .start ∧
    s.cpQuit = false ∧ (∀ j, s.dpQuit j = false) ∧ s.main = .testing ∧
    (∀ j, s.workers j = .testing) ∧ s.handlers = []
  step := programStep K

/-! ### The flags -/

theorem flag_same {s s' : Program n} (hmain : s'.cpQuit = s.cpQuit) (hworkers : s'.dpQuit = s.dpQuit)
    (f : Flag n) : s'.flag f = s.flag f := by
  cases f with
  | cpQuit => exact hmain
  | dpQuit j => exact congrFun hworkers j

section
variable (s : Program n) (f : Flag n)

theorem flag_store (g : Flag n) : (s.store f).flag g = true ↔ g = f ∨ s.flag g = true := by
  cases f with
  | cpQuit =>
    cases g with
    | cpQuit => exact iff_of_true rfl (Or.inl rfl)
    | dpQuit j => exact ⟨Or.inr, fun h => h.resolve_left (fun h => nomatch h)⟩
  | dpQuit i =>
    cases g with
    | cpQuit => exact ⟨Or.inr, fun h => h.resolve_left (fun h => nomatch h)⟩
    | dpQuit j =>
      show Function.update s.dpQuit i true j = true ↔ _
      by_cases hj : j = i
      · rw [hj, Function.update_self]
        exact iff_of_true rfl (Or.inl rfl)
      · rw [Function.update_of_ne hj]
        exact ⟨Or.inr, fun h => h.resolve_left fun h => hj (Flag.dpQuit.inj h)⟩

@[simp] theorem store_cores : (s.store f).cores = s.cores := by cases f <;> rfl

@[simp] theorem store_panel : (s.store f).panel = s.panel := by cases f <;> rfl

@[simp] theorem store_main : (s.store f).main = s.main := by cases f <;> rfl

@[simp] theorem store_workers : (s.store f).workers = s.workers := by cases f <;> rfl

@[simp] theorem store_handlers : (s.store f).handlers = s.handlers := by cases f <;> rfl

end

theorem mem_exitStats (f : Flag n) : f ∈ exitStats := by
  cases f with
  | cpQuit => exact List.mem_cons_self ..
  | dpQuit j => exact List.mem_cons_of_mem _ (List.mem_map_of_mem (List.mem_finRange j))

theorem mem_exitCommand (f : Flag n) : f ∈ exitCommand := by
  cases f with
  | cpQuit => exact List.mem_append_right _ (List.mem_singleton_self _)
  | dpQuit j => exact List.mem_append_left _ (List.mem_map_of_mem (List.mem_finRange j))

/-! ## One core of the program -/

def Cmd.op (q : Quad) : Cmd → Option Op
  | .close => some (.close q)
  | .send data => some (.send q data)
  | .flow => none

/-- What a command is for the core `j`. -/
def actionInput (env : Env) (c : TcpList n) (j : Fin (n + 1)) : Action → Option Input
  | .onFlow cmd q =>
    match lookFlow c { q with pad := env.pad } with
    | none => none
    | some (i, _) => if i = j then (cmd.op q).map (⟨·, env⟩) else none
  | .connect dip dport sport => if j = firstCore then some ⟨.connect dip dport sport, env⟩ else none
  | _ => none

/-- What a turn is for the core `j`. -/
def coreInput (j : Fin (n + 1)) (s : Program n) : ProgramTurn n → Option Input
  | .main _ _ _ env stale =>
    match s.main with
    | .handling (call :: _) => actionInput env s.cores j (cliAction stale call.msgIn)
    | _ => none
  | .worker i _ =>
    match s.workers i with
    | .receiving ((p, env) :: _) => if i = j then some ⟨.rx p, env⟩ else none
    | _ => none
  | .handler _ => none
  | .signal => none

/-- The core `j` takes the input and the others do nothing, or none does anything. -/
inductive Stepped (K : RteCksum) (c : TcpList n) (input : Fin (n + 1) → Option Input) :
    TcpList n → Out → Prop
  | nowhere : (∀ j, input j = none) → Stepped K c input c {}
  | only {j i k out} : input j = some i → (∀ x, x ≠ j → input x = none) →
      step K (c j) i = some (k, out) → Stepped K c input (Function.update c j k) out

section
variable {K : RteCksum} {env : Env} {c : TcpList n}

theorem Stepped.none_same {input : Fin (n + 1) → Option Input} {c' : TcpList n} {out : Out}
    (h : Stepped K c input c' out) {j : Fin (n + 1)} (hj : input j = none) : c' j = c j := by
  cases h with
  | nowhere _ => rfl
  | @only x _ _ _ hx _ _ =>
    have hne : j ≠ x := by
      rintro rfl
      cases hj.symm.trans hx
    exact Function.update_of_ne hne ..

theorem Stepped.some_step {input : Fin (n + 1) → Option Input} {c' : TcpList n} {out : Out}
    (h : Stepped K c input c' out) {j : Fin (n + 1)} {i : Input} (hj : input j = some i) :
    step K (c j) i = some (c' j, out) := by
  cases h with
  | nowhere h => cases (h j).symm.trans hj
  | @only x _ _ _ hx hothers hk =>
    by_cases hne : j = x
    · subst hne
      cases hx.symm.trans hj
      rw [Function.update_self]
      exact hk
    · cases (hothers j hne).symm.trans hj

theorem actOn_step {cmd : Cmd} {q : Quad} {op : Op} (hop : cmd.op q = some op) {j : Fin (n + 1)}
    {p : Nat} (hl : (c j).tcp.rteHash.lookup { q with pad := env.pad } = some p) {done : CliDone n}
    (h : actOn K env c cmd j p = .ok done) :
    ∃ k, step K (c j) ⟨op, env⟩ = some (k, { frames := done.frames }) ∧
      done.cores = Function.update c j k := by
  unfold actOn at h
  split at h
  · cases h
  · rename_i conn hr
    split at h
    · cases h
    · rename_i d frames ha
      cases h
      refine ⟨_, ?_, rfl⟩
      cases cmd with
      | close =>
        cases hop
        simp only [step, cliFlow, hl, hr]
        exact congrArg (Option.map _) ha
      | send data =>
        cases hop
        simp only [step, cliFlow, hl, hr]
        exact congrArg (Option.map _) ha
      | flow => cases hop

theorem activeConnect_out {k k' : Core} {dip : BitVec 32} {dport sport : BitVec 16} {out : Out}
    (h : activeConnect K env k dip dport sport = some (k', out)) : out = { frames := out.frames } := by
  simp only [activeConnect] at h
  split at h
  · split at h
    · cases h
    · obtain ⟨x, -, he⟩ := Option.map_eq_some_iff.mp h
      cases he
      rfl
  · cases h
    rfl

theorem execute_stepped {action : Action} (hflow : ∀ q, action ≠ .onFlow .flow q) {done : CliDone n}
    (h : cliExecute K env c action = .ok done) :
    Stepped K c (fun j => actionInput env c j action) done.cores { frames := done.frames } := by
  cases action with
  | nothing => cases h; exact .nowhere fun _ => rfl
  | launch => cases h; exact .nowhere fun _ => rfl
  | quit => cases h; exact .nowhere fun _ => rfl
  | dump => cases h; exact .nowhere fun _ => rfl
  | exit => cases h
  | crash => cases h
  | onFlow cmd q =>
    simp only [cliExecute] at h
    split at h
    · rename_i hl
      cases h
      exact .nowhere fun j => by simp [actionInput, hl]
    · rename_i j p hl
      obtain ⟨op, hop⟩ : ∃ op, cmd.op q = some op := by
        cases cmd with
        | close => exact ⟨_, rfl⟩
        | send data => exact ⟨_, rfl⟩
        | flow => exact absurd rfl (hflow q)
      obtain ⟨k, hk, hcores⟩ := actOn_step hop (lookFlow_some hl).1 h
      rw [hcores]
      refine .only (i := ⟨op, env⟩) ?_ (fun x hx => ?_) hk
      · simp [actionInput, hl, hop]
      · simp [actionInput, hl, Ne.symm hx]
  | connect dip dport sport =>
    simp only [cliExecute] at h
    split at h
    · cases h
    · rename_i k out hk
      cases h
      refine .only (i := ⟨.connect dip dport sport, env⟩) ?_ (fun x hx => ?_) ?_
      · simp [actionInput]
      · simp [actionInput, hx]
      · rw [← activeConnect_out hk]
        exact hk

end

/-! ## The turns -/

inductive Actor (n : Nat) where
  | main
  | worker (j : Fin (n + 1))
  | handler

/-- Whose turn it is; a signal is nobody's. -/
def turnOf : ProgramTurn n → Option (Actor n)
  | .main _ _ _ _ _ => some .main
  | .worker j _ => some (.worker j)
  | .handler _ => some .handler
  | .signal => none

def Action.isQuit : Action → Bool
  | .quit => true
  | _ => false

inductive ProgramMoved (K : RteCksum) (s : Program n) : ProgramTurn n → Program n → Out → Prop
  | left {client ok ev env stale} : s.main = .testing → s.cpQuit = true →
      ProgramMoved K s (.main client ok ev env stale) { s with main := .joining } {}
  | goesOn {client ok ev env stale} : s.main = .testing → s.cpQuit = false →
      ProgramMoved K s (.main client ok ev env stale) { s with main := .accepting } {}
  | accepted {client ok ev env stale} : s.main = .accepting →
      ProgramMoved K s (.main client ok ev env stale)
        { s with panel := (connPollForConn s.panel client ok).1, main := .polling } {}
  | polled {client ok ev env stale panel calls} : s.main = .polling →
      pollTurn s ev = { s with panel, main := .handling calls } →
      ProgramMoved K s (.main client ok ev env stale) { s with panel, main := .handling calls } {}
  | handled {client ok ev env stale} : s.main = .handling [] →
      ProgramMoved K s (.main client ok ev env stale) { s with main := .testing } {}
  | quit {client ok ev env stale call calls} : s.main = .handling (call :: calls) →
      (cliAction stale call.msgIn).isQuit = true →
      ProgramMoved K s (.main client ok ev env stale)
        { s with main := .exiting exitCommand calls } {}
  | carried {client ok ev env stale call calls cores out} : s.main = .handling (call :: calls) →
      (cliAction stale call.msgIn).isQuit = false →
      Stepped K s.cores (fun j => actionInput env s.cores j (cliAction stale call.msgIn)) cores out →
      ProgramMoved K s (.main client ok ev env stale) { s with main := .handling calls, cores } out
  | stored {client ok ev env stale f todo calls} : s.main = .exiting (f :: todo) calls →
      ProgramMoved K s (.main client ok ev env stale)
        { s.store f with main := .exiting todo calls } {}
  | allStored {client ok ev env stale calls} : s.main = .exiting [] calls →
      ProgramMoved K s (.main client ok ev env stale) { s with main := .handling calls } {}
  | joined {client ok ev env stale} : s.main = .joining → (∀ j, (s.workers j).gone = true) →
      ProgramMoved K s (.main client ok ev env stale) { s with main := .returned } {}
  | waits {client ok ev env stale} : s.main = .joining → ¬(∀ j, (s.workers j).gone = true) →
      ProgramMoved K s (.main client ok ev env stale) s {}
  | returned {client ok ev env stale} : s.main = .returned →
      ProgramMoved K s (.main client ok ev env stale) s {}
  | exits {j bufs} : s.workers j = .testing → s.dpQuit j = true →
      ProgramMoved K s (.worker j bufs) (s.worker j .exited) {}
  | polls {j bufs} : s.workers j = .testing → s.dpQuit j = false →
      ProgramMoved K s (.worker j bufs) (s.worker j .polling) {}
  | takes {j bufs} : s.workers j = .polling →
      ProgramMoved K s (.worker j bufs) (s.worker j (.receiving bufs)) {}
  | through {j bufs} : s.workers j = .receiving [] →
      ProgramMoved K s (.worker j bufs) (s.worker j .testing) {}
  | received {j bufs p env rest k out} : s.workers j = .receiving ((p, env) :: rest) →
      step K (s.cores j) ⟨.rx p, env⟩ = some (k, out) →
      ProgramMoved K s (.worker j bufs)
        { s.worker j (.receiving rest) with cores := Function.update s.cores j k } out
  | exited {j bufs} : s.workers j = .exited → ProgramMoved K s (.worker j bufs) s {}
  | sets {h i f todo} : s.handlers[i]? = some (f :: todo) →
      ProgramMoved K s (.handler h) { s.store f with handlers := s.handlers.set i todo } {}
  | handlerReturns {h i} : s.handlers[i]? = some [] →
      ProgramMoved K s (.handler h) { s with handlers := s.handlers.eraseIdx i } {}
  | noHandler {h} : s.handlers = [] → ProgramMoved K s (.handler h) s {}
  | signalled : ProgramMoved K s .signal { s with handlers := s.handlers ++ [exitStats] } {}

section
variable {K : RteCksum} {s s' : Program n} {out : Out}

theorem cliTurn_some {env : Env} {calls : List (Call Byte)} {action : Action}
    (h : cliTurn K env s calls action = some (s', out)) :
    action.isQuit = true ∧ s' = { s with main := .exiting exitCommand calls } ∧ out = {} ∨
      action.isQuit = false ∧ ∃ cores, s' = { s with main := .handling calls, cores } ∧
        Stepped K s.cores (fun j => actionInput env s.cores j action) cores out := by
  have carried : ∀ action, (∀ q, action ≠ .onFlow .flow q) →
      (match cliExecute K env s.cores action with
        | .error _ => none
        | .ok done => some ({ s with main := .handling calls, cores := done.cores },
            ({ frames := done.frames } : Out))) = some (s', out) →
      ∃ cores, s' = { s with main := .handling calls, cores } ∧
        Stepped K s.cores (fun j => actionInput env s.cores j action) cores out := by
    intro action hflow h
    split at h
    · cases h
    · rename_i done hx
      cases h
      exact ⟨_, rfl, execute_stepped hflow hx⟩
  unfold cliTurn at h
  cases action with
  | quit =>
    cases h
    exact Or.inl ⟨rfl, rfl, rfl⟩
  | onFlow cmd q =>
    refine Or.inr ⟨rfl, ?_⟩
    cases cmd with
    | flow =>
      have nowhere : Stepped K s.cores (fun j => actionInput env s.cores j (.onFlow .flow q))
          s.cores {} := by
        refine .nowhere fun j => ?_
        simp only [actionInput, Cmd.op, Option.map_none, ite_self]
        split <;> rfl
      dsimp only at h
      split at h
      · cases h
        exact ⟨_, rfl, nowhere⟩
      · obtain ⟨c, -, he⟩ := Option.map_eq_some_iff.mp h
        cases he
        exact ⟨_, rfl, nowhere⟩
    | close => exact carried _ (by simp) h
    | send data => exact carried _ (by simp) h
  | nothing => exact Or.inr ⟨rfl, carried _ (by simp) h⟩
  | launch => exact Or.inr ⟨rfl, carried _ (by simp) h⟩
  | dump => exact Or.inr ⟨rfl, carried _ (by simp) h⟩
  | connect dip dport sport => exact Or.inr ⟨rfl, carried _ (by simp) h⟩
  | exit => exact Or.inr ⟨rfl, carried _ (by simp) h⟩
  | crash => exact Or.inr ⟨rfl, carried _ (by simp) h⟩

theorem pollTurn_eq (s : Program n) (ev : Option PanelEvent) :
    ∃ panel calls, pollTurn s ev = { s with panel, main := .handling calls } := by
  cases ev with
  | none => exact ⟨s.panel, [], rfl⟩
  | some ev => exact ⟨_, _, rfl⟩

theorem handlerTurn_moved (h : Nat) : ProgramMoved K s (.handler h) (handlerTurn s h) {} := by
  unfold handlerTurn
  dsimp only
  split
  · rename_i hno
    -- an index below the length is there
    have hnil : s.handlers = [] := by
      rw [List.getElem?_eq_none_iff] at hno
      by_contra hne
      exact absurd (Nat.mod_lt h (List.length_pos_iff.mpr hne)) (Nat.not_lt.mpr hno)
    exact .noHandler hnil
  · rename_i hi
    exact .handlerReturns hi
  · rename_i f todo hi
    exact .sets hi

theorem programStep_moved {t : ProgramTurn n} (h : programStep K s t = some (s', out)) :
    ProgramMoved K s t s' out := by
  cases t with
  | main client ok ev env stale =>
    simp only [programStep, mainTurn] at h
    split at h
    · rename_i hm
      split at h
      · rename_i hq
        cases h
        exact .left hm hq
      · rename_i hq
        cases h
        exact .goesOn hm (Bool.eq_false_iff.mpr hq)
    · rename_i hm
      cases h
      exact .accepted hm
    · rename_i hm
      cases h
      obtain ⟨panel, calls, hpoll⟩ := pollTurn_eq s ev
      rw [hpoll]
      exact .polled hm hpoll
    · rename_i hm
      cases h
      exact .handled hm
    · rename_i call calls hm
      rcases cliTurn_some h with ⟨hq, rfl, rfl⟩ | ⟨hq, cores, rfl, hstepped⟩
      · exact .quit hm hq
      · exact .carried hm hq hstepped
    · rename_i hm
      cases h
      exact .allStored hm
    · rename_i hm
      cases h
      exact .stored hm
    · rename_i hm
      split at h
      · rename_i hgone
        cases h
        exact .joined hm hgone
      · rename_i hgone
        cases h
        exact .waits hm hgone
    · rename_i hm
      cases h
      exact .returned hm
  | worker j bufs =>
    simp only [programStep, workerTurn] at h
    split at h
    · rename_i hw
      cases h
      cases hq : s.dpQuit j with
      | true => exact .exits hw hq
      | false => exact .polls hw hq
    · rename_i hw
      cases h
      exact .takes hw
    · rename_i hw
      cases h
      exact .through hw
    · rename_i p env rest hw
      obtain ⟨⟨k, out'⟩, hk, he⟩ := Option.map_eq_some_iff.mp h
      cases he
      exact .received hw hk
    · rename_i hw
      cases h
      exact .exited hw
  | handler h' =>
    cases h
    exact handlerTurn_moved h'
  | signal =>
    cases h
    exact .signalled

theorem moved_stepped {t : ProgramTurn n} (h : ProgramMoved K s t s' out) :
    Stepped K s.cores (fun j => coreInput j s t) s'.cores out := by
  cases h with
  | left hm _ => exact .nowhere fun j => by simp [coreInput, hm]
  | goesOn hm _ => exact .nowhere fun j => by simp [coreInput, hm]
  | accepted hm => exact .nowhere fun j => by simp [coreInput, hm]
  | polled hm _ => exact .nowhere fun j => by simp [coreInput, hm]
  | handled hm => exact .nowhere fun j => by simp [coreInput, hm]
  | quit hm hq =>
    refine .nowhere fun j => ?_
    simp only [coreInput, hm]
    generalize cliAction _ _ = action at hq ⊢
    cases action <;> first | rfl | cases hq
  | carried hm _ hstepped =>
    simp only [coreInput, hm]
    exact hstepped
  | stored hm =>
    simp only [store_cores]
    exact .nowhere fun j => by simp [coreInput, hm]
  | allStored hm => exact .nowhere fun j => by simp [coreInput, hm]
  | joined hm _ => exact .nowhere fun j => by simp [coreInput, hm]
  | waits hm _ => exact .nowhere fun j => by simp [coreInput, hm]
  | returned hm => exact .nowhere fun j => by simp [coreInput, hm]
  | exits hw _ => exact .nowhere fun j => by simp [coreInput, hw]
  | polls hw _ => exact .nowhere fun j => by simp [coreInput, hw]
  | takes hw => exact .nowhere fun j => by simp [coreInput, hw]
  | through hw => exact .nowhere fun j => by simp [coreInput, hw]
  | @received j _ p env _ _ _ hw hk =>
    refine .only (i := ⟨.rx p, env⟩) ?_ (fun x hx => ?_) hk
    · simp [coreInput, hw]
    · simp [coreInput, hw, Ne.symm hx]
  | exited hw => exact .nowhere fun j => by simp [coreInput, hw]
  | sets _ =>
    simp only [store_cores]
    exact .nowhere fun _ => rfl
  | handlerReturns _ => exact .nowhere fun _ => rfl
  | noHandler _ => exact .nowhere fun _ => rfl
  | signalled => exact .nowhere fun _ => rfl

/-- What the event is for the core `j`, and what comes out of it. -/
def coreEvent (j : Fin (n + 1)) (e : (programMachine K n).Event) : Option (Input × Out) :=
  (coreInput j e.pre e.input).map fun i => (i, e.out)

theorem event_stepped (e : (programMachine K n).Event) :
    Stepped K e.pre.cores (fun j => coreInput j e.pre e.input) e.post.cores e.out :=
  moved_stepped (programStep_moved e.fired)

theorem path_core {s₀ : Program n} {tr : List (programMachine K n).Event}
    (hp : Machine.Path s₀ tr s) (j : Fin (n + 1)) : ∃ xs : List (machine K).Event,
      Machine.Path (s₀.cores j) xs (s.cores j) ∧
        xs.map Machine.Event.io = tr.filterMap (coreEvent j) := by
  refine Machine.path_shadow (f := fun s => s.cores j) hp (fun e _ hsel => ?_) fun e _ i out hsel => ?_
  · exact (event_stepped e).none_same (Option.map_eq_none_iff.mp hsel)
  · obtain ⟨i', hi, he⟩ := Option.map_eq_some_iff.mp hsel
    cases he
    exact (event_stepped e).some_step hi

theorem event_core (e : (programMachine K n).Event) :
    e.out = {} ∨ ∃! j, coreInput j e.pre e.input ≠ none := by
  have he := event_stepped e
  generalize e.post.cores = c' at he
  generalize e.out = out at he
  cases he with
  | nowhere _ => exact Or.inl rfl
  | @only j i _ _ hj hothers _ =>
    refine Or.inr ⟨j, by simp [hj], fun x hx => ?_⟩
    by_contra hne
    exact hx (hothers x hne)

/-- In every run of the program, commands and packets being carried out one at a time, each
core makes a run of the machine of one core, of what the workers and the commands do to
it, and nothing is sent but by a core that steps. -/
theorem program_core {tr : List (programMachine K n).Event} (h : Machine.Run tr s) :
    (∀ j, ∃ xs : List (machine K).Event, Machine.Run xs (s.cores j) ∧
      xs.map Machine.Event.io = tr.filterMap (coreEvent j)) ∧
    ∀ e ∈ tr, e.out = {} ∨ ∃! j, coreInput j e.pre e.input ≠ none := by
  obtain ⟨s₀, ⟨⟨nic, hcores⟩, -⟩, hp⟩ := h
  refine ⟨fun j => ?_, fun e _ => event_core e⟩
  obtain ⟨last, hj⟩ := hcores j
  obtain ⟨xs, hx, hio⟩ := path_core hp j
  exact ⟨xs, ⟨_, ⟨nic, last, hj⟩, hx⟩, hio⟩

end

end

/-! ## On the host -/

def programHost : Program 0 where
  panel := .start
  cores := fun _ => host
  cpQuit := false
  dpQuit := fun _ => false
  main := .testing
  workers := fun _ => .testing
  handlers := []

theorem programHost_init (K : RteCksum) : (programMachine K 0).init programHost :=
  ⟨⟨hostNic, fun _ => ⟨0, rfl⟩⟩, rfl, rfl, fun _ => rfl, rfl, fun _ => rfl, rfl⟩

def mainTakes (ev : Option PanelEvent) : ProgramTurn 0 := .main true true ev calm fun _ => []

def typesLine (line : String) : PanelEvent :=
  ⟨0, some (.bytes ((ascii line).map quick) true), none⟩

/-- The loop of `main` from its head until a line has been read. -/
def mainReads (line : String) : List (ProgramTurn 0) :=
  [mainTakes none, mainTakes none, mainTakes (some (typesLine line))]

/-- A command, and a SYN that is received while it is carried out. -/
def connectsAndReceives : List (ProgramTurn 0) :=
  mainReads "connect 10.0.0.2 40000\n" ++
    [.worker (Fin.last 0) [], .worker (Fin.last 0) [(peerPacket rteTcpSynFlag 0 0 [], calm)],
      .worker (Fin.last 0) [], mainTakes none]

theorem program_core_connect : ∃ (tr : List (programMachine rfcCksum 0).Event) (s : Program 0),
    Machine.Run tr s ∧ (tr.filterMap (coreEvent 0)).length = 2 ∧
      (∀ j, ∃ xs : List (machine rfcCksum).Event, Machine.Run xs (s.cores j) ∧
        xs.map Machine.Event.io = tr.filterMap (coreEvent j)) ∧
      ∀ e ∈ tr, e.out = {} ∨ ∃! j, coreInput j e.pre e.input ≠ none := by
  obtain ⟨tr, s, hr, hQ⟩ := Machine.exists_run (programHost_init rfcCksum) connectsAndReceives
    (Q := fun r => (r.1.filterMap (coreEvent 0)).length = 2) (by decide +kernel)
  exact ⟨tr, s, hr, of_decide_eq_true hQ, program_core hr⟩

end TcpDpdk
