import TcpDpdk.Session
import TcpDpdk.Shutdown

/-!
# Two programs on one cable

Two whole programs, each with its control panel, its workers and its signals. What one of them sends
comes into the receive queues of the other, where RSS puts it, and is taken from there in bursts.
`pair_refines` follows a flow between them, beside any other traffic, to a run of two cores on a wire;
`pair_session` says what the lines typed on one side do on the other.
-/

namespace TcpDpdk

open Duplex (Side)

structure Pair (n : Nat) where
  prog : Side → Program n
  /-- on the wire or in the receive queue, the oldest first -/
  queue : Side → Fin (n + 1) → List Packet

inductive PairTurn (n : Nat) where
  | main (client ok : Bool) (ev : Option PanelEvent) (env : Env) (stale : Nat → List Byte)
  /-- A burst is no longer than the queue. -/
  | worker (j : Fin (n + 1)) (envs : List Env)
  | handler (h : Nat)
  | signal

section
variable {n : Nat}

def Rss.packet (r : Rss n) (p : Packet) : Fin (n + 1) :=
  r.queueId p.ipv4.srcAddr p.tcp.srcPort p.ipv4.dstAddr p.tcp.dstPort

namespace Pair

def turn (s : Pair n) (i : Side) : PairTurn n → ProgramTurn n
  | .main client ok ev env stale => .main client ok ev env stale
  | .worker j envs => .worker j ((s.queue i j).zip envs)
  | .handler h => .handler h
  | .signal => .signal

/-- What `rte_eth_rx_burst` takes in the turn. -/
def taken (s : Pair n) (i : Side) (t : PairTurn n) (j : Fin (n + 1)) : List (Packet × Env) :=
  packetsRead j (s.prog i) (s.turn i t)

end Pair

def arrivals (r : Rss n) (j : Fin (n + 1)) (out : Out) : List Packet :=
  (out.frames.map Frame.packet).filter fun p => r.packet p = j

def pairMachine (K : RteCksum) (r : Side → Rss n) : Machine (Pair n) (Side × PairTurn n) Out where
  init s := (∀ i, (programMachine K n).init (s.prog i)) ∧ ∀ i j, s.queue i j = []
  step s x := (programStep K (s.prog x.1) (s.turn x.1 x.2)).map fun (p, out) =>
    ({ prog := Function.update s.prog x.1 p
       queue := fun i j =>
         if i = x.1 then (s.queue i j).drop (s.taken i x.2 j).length
         else s.queue i j ++ arrivals (r i) j out }, out)

/-! ## One flow -/

def Packet.quad (p : Packet) : Quad :=
  ⟨p.ipv4.srcAddr, p.tcp.srcPort, p.ipv4.dstAddr, p.tcp.dstPort, 0⟩

instance (q x : Quad) : Decidable (q.SameFlow x) := inferInstanceAs (Decidable (_ ∧ _ ∧ _ ∧ _))

namespace Pair

def nic (s : Pair n) : Side → Nic := fun i => ((s.prog i).cores firstCore).tcp.nic

/-- What is on its way to the core `j`, to the loop over its burst. -/
def pending (s : Pair n) (i : Side) (j : Fin (n + 1)) : List Packet :=
  ((s.prog i).burst j).map Prod.fst ++ s.queue i j

section
variable (r : Side → Rss n) (φ : Flow) (s : Pair n)

/-- The core RSS sends the flow to. -/
def home (i : Side) : Fin (n + 1) := (r i).queue (φ.key s.nic i)

/-- The flow and the two cores it is for. -/
def net : Duplex.Net Core Packet where
  node i := (s.prog i).cores (s.home r φ i)
  toward i := (s.pending i (s.home r φ i)).filter fun p => p.quad.SameFlow (φ.key s.nic i)

end

end Pair

/-- What an input to a core of side `i` is on the wire of the flow. -/
def wireInput (φ : Flow) (nic : Side → Nic) (i : Side) (x : Input) : Duplex.Input Input Env :=
  if (keyOf (nic i) x).SameFlow (φ.key nic i) then
    match x.op with
    | .rx _ => .deliver i x.env
    | .connect _ _ _ => .act i x
    | .close _ => .act i x
    | .send _ _ => .act i x
  else .aside i x

section
variable {K : RteCksum} {r : Side → Rss n} (φ : Flow)

def pairInput (e : (pairMachine K r).Event) (j : Fin (n + 1)) : Option Input :=
  coreInput j (e.pre.prog e.input.1) (e.pre.turn e.input.1 e.input.2)

def wireEvent (e : (pairMachine K r).Event) : Option (Duplex.Input Input Env × Out) :=
  (pairInput e (e.pre.home r φ e.input.1)).map fun x =>
    (wireInput φ e.pre.nic e.input.1 x, e.out)

/-- The commands of the flow in the lines that were carried out. -/
def typed (tr : List (pairMachine K r).Event) : List (Side × Op) :=
  (tr.filterMap (wireEvent φ)).filterMap fun x => commandOf x.1

def typedText (tr : List (pairMachine K r).Event) (i : Side) : List Byte :=
  (typed φ tr).flatMap (saidBy i)

/-- What `print_data` prints of the flow. -/
def printedText (tr : List (pairMachine K r).Event) (i : Side) : List Byte :=
  (tr.filterMap (wireEvent φ)).flatMap fun x => printedAt i x.1 x.2

/-- The users are polite as far as the flow goes, whichever core it is that takes the input. -/
def PairPolite (tr : List (pairMachine K r).Event) (e : (pairMachine K r).Event) : Prop :=
  ∀ j x, pairInput e j = some x → (keyOf (e.pre.nic e.input.1) x).SameFlow (φ.key e.pre.nic e.input.1) →
    Allowed φ (typed φ tr) (e.pre.net r φ) (wireInput φ e.pre.nic e.input.1 x)

/-! ## What a turn does to the queues -/

def Op.packet? : Op → Option Packet
  | .rx p => some p
  | .connect _ _ _ => none
  | .close _ => none
  | .send _ _ => none

theorem action_packet {env : Env} {c : TcpList n} {j : Fin (n + 1)} (a : Action) :
    (actionInput env c j a).bind (·.op.packet?) = none := by
  cases a with
  | onFlow cmd q =>
    simp only [actionInput]
    split
    · rfl
    · split
      · cases cmd <;> rfl
      · rfl
  | connect dip dport sport =>
    simp only [actionInput]
    split <;> rfl
  | nothing => rfl
  | launch => rfl
  | quit => rfl
  | dump => rfl
  | exit => rfl
  | crash => rfl

theorem carried_input (s : Program n) (t : ProgramTurn n) (j : Fin (n + 1)) :
    (packetsCarried j s t).map Prod.fst = ((coreInput j s t).bind (·.op.packet?)).toList := by
  cases t with
  | main client ok ev env stale =>
    simp only [coreInput]
    split
    · rw [action_packet]
      rfl
    · rfl
  | worker i bufs =>
    by_cases hij : i = j
    · subst hij
      simp only [packetsCarried, coreInput]
      cases s.workers i with
      | receiving bufs => cases bufs <;> simp [Op.packet?]
      | _ => simp
    · simp only [packetsCarried, coreInput, if_neg hij]
      cases s.workers i with
      | receiving bufs => cases bufs <;> simp
      | _ => simp
  | handler h => rfl
  | signal => rfl

/-- A worker takes its packets from the front of what is on its way to it, one at a time. -/
theorem moved_burst {s s' : Program n} {t : ProgramTurn n} {out : Out} (h : ProgramMoved K s t s' out)
    (j : Fin (n + 1)) : (s.burst j).map Prod.fst ++ (packetsRead j s t).map Prod.fst =
      ((coreInput j s t).bind (·.op.packet?)).toList ++ (s'.burst j).map Prod.fst := by
  rw [← carried_input, ← List.map_append, ← List.map_append, moved_packets j h]

variable {φ}

theorem event_prog (e : (pairMachine K r).Event) :
    ProgramMoved K (e.pre.prog e.input.1) (e.pre.turn e.input.1 e.input.2) (e.post.prog e.input.1)
      e.out ∧ e.post.prog e.input.1.other = e.pre.prog e.input.1.other ∧
    (∀ j, e.post.queue e.input.1 j =
      (e.pre.queue e.input.1 j).drop (e.pre.taken e.input.1 e.input.2 j).length) ∧
    ∀ j, e.post.queue e.input.1.other j =
      e.pre.queue e.input.1.other j ++ arrivals (r e.input.1.other) j e.out := by
  obtain ⟨⟨p, out⟩, hp, he⟩ := Option.map_eq_some_iff.mp e.fired
  obtain ⟨hpost, hout⟩ := Prod.mk.inj he
  rw [← hpost, ← hout]
  refine ⟨?_, Function.update_of_ne (Side.other_ne _) .., fun j => if_pos rfl,
    fun j => if_neg (Side.other_ne _)⟩
  show ProgramMoved K _ _ (Function.update e.pre.prog e.input.1 p e.input.1) out
  rw [Function.update_self]
  exact programStep_moved hp

theorem zip_drop {α β : Type} (l : List α) (l' : List β) :
    (l.zip l').map Prod.fst ++ l.drop (l.zip l').length = l := by
  induction l generalizing l' with
  | nil => rfl
  | cons a l ih =>
    cases l' with
    | nil => rfl
    | cons b l' => exact congrArg (a :: ·) (ih l')

theorem taken_queue (s : Pair n) (i : Side) (t : PairTurn n) (j : Fin (n + 1)) :
    (s.taken i t j).map Prod.fst ++ (s.queue i j).drop (s.taken i t j).length = s.queue i j := by
  cases t with
  | worker x envs =>
    unfold Pair.taken Pair.turn packetsRead
    dsimp only
    by_cases hx : x = j
    · subst hx
      rw [if_pos rfl]
      cases (s.prog i).workers x with
      | polling => exact zip_drop ..
      | _ => rfl
    · rw [if_neg hx]
      rfl
  | _ => rfl

theorem pending_own (e : (pairMachine K r).Event) (j : Fin (n + 1)) :
    e.pre.pending e.input.1 j =
      ((pairInput e j).bind (·.op.packet?)).toList ++ e.post.pending e.input.1 j := by
  obtain ⟨hmoved, -, hqueue, -⟩ := event_prog e
  unfold Pair.pending pairInput
  rw [hqueue, ← List.append_assoc, ← moved_burst hmoved j, List.append_assoc]
  exact congrArg _ (taken_queue ..).symm

theorem pending_other (e : (pairMachine K r).Event) (j : Fin (n + 1)) :
    e.post.pending e.input.1.other j =
      e.pre.pending e.input.1.other j ++ arrivals (r e.input.1.other) j e.out := by
  obtain ⟨-, hprog, -, hqueue⟩ := event_prog e
  unfold Pair.pending
  rw [hqueue, hprog, List.append_assoc]

/-! ## What holds whatever the users do -/

structure Pair.Sound (K : RteCksum) (r : Side → Rss n) (s : Pair n) : Prop where
  nics : ∀ i j, ((s.prog i).cores j).tcp.nic = s.nic i
  reached : ∀ i j, ∃ xs : List (machine K).Event, Machine.Run xs ((s.prog i).cores j)
  queues : ∀ i j, ∀ p ∈ s.pending i j, (r i).packet p = j

theorem Pair.Sound.rep {s : Pair n} (h : s.Sound K r) (i : Side) (j : Fin (n + 1)) :
    ((s.prog i).cores j).Rep :=
  let ⟨_, hr⟩ := h.reached i j
  run_rep hr

section
variable {e : (pairMachine K r).Event}

theorem Stepped.mover {c c' : TcpList n} {input : Fin (n + 1) → Option Input} {out : Out}
    (h : Stepped K c input c' out) : out = {} ∨ ∃ j x, input j = some x := by
  cases h with
  | nowhere _ => exact Or.inl rfl
  | only hj _ _ => exact Or.inr ⟨_, _, hj⟩

theorem event_cores (e : (pairMachine K r).Event) :
    Stepped K (e.pre.prog e.input.1).cores (pairInput e) (e.post.prog e.input.1).cores e.out :=
  moved_stepped (event_prog e).1

/-- A core is as it was or takes the input. -/
theorem core_steps (e : (pairMachine K r).Event) (i : Side) (j : Fin (n + 1)) :
    (e.post.prog i).cores j = (e.pre.prog i).cores j ∨ i = e.input.1 ∧ ∃ x, pairInput e j = some x ∧
      step K ((e.pre.prog i).cores j) x = some ((e.post.prog i).cores j, e.out) := by
  rcases e.input.1.eq_or_other i with rfl | rfl
  · cases hx : pairInput e j with
    | none => exact Or.inl ((event_cores e).none_same hx)
    | some x => exact Or.inr ⟨rfl, x, rfl, (event_cores e).some_step hx⟩
  · rw [(event_prog e).2.1]
    exact Or.inl rfl

theorem core_nic (h : e.pre.Sound K r) (i : Side) (j : Fin (n + 1)) :
    ((e.post.prog i).cores j).tcp.nic = ((e.pre.prog i).cores j).tcp.nic := by
  rcases core_steps e i j with hsame | ⟨-, x, -, hs⟩
  · rw [hsame]
  · obtain ⟨o, ht, -⟩ := step_slot (h.rep i j) hs
    exact ht.nic

theorem pair_nic (h : e.pre.Sound K r) : e.post.nic = e.pre.nic :=
  funext fun i => core_nic h i firstCore

theorem event_sound (h : e.pre.Sound K r) : e.post.Sound K r := by
  refine ⟨fun i j => ?_, fun i j => ?_, fun i j p hp => ?_⟩
  · rw [core_nic h, pair_nic h]
    exact h.nics i j
  · obtain ⟨xs, hr⟩ := h.reached i j
    rcases core_steps e i j with hsame | ⟨-, x, -, hs⟩
    · rw [hsame]
      exact ⟨xs, hr⟩
    · exact ⟨xs ++ [⟨_, x, _, e.out, hs⟩], Machine.run_snoc.mpr ⟨hr, rfl⟩⟩
  · rcases e.input.1.eq_or_other i with rfl | rfl
    · refine h.queues _ j p ?_
      rw [pending_own]
      exact List.mem_append_right _ hp
    · rw [pending_other] at hp
      rcases List.mem_append.mp hp with hp | hp
      · exact h.queues _ j p hp
      · exact of_decide_eq_true (List.mem_filter.mp hp).2

theorem run_sound {tr : List (pairMachine K r).Event} {s : Pair n} (h : Machine.Run tr s) :
    s.Sound K r := by
  refine Machine.Run.inv (P := fun s => s.Sound K r) (fun s h0 => ?_) (fun _ => event_sound) h
  obtain ⟨hprog, hqueue⟩ := h0
  refine ⟨fun i j => ?_, fun i j => ?_, fun i j p hp => ?_⟩
  · obtain ⟨⟨nic, hcores⟩, -⟩ := hprog i
    obtain ⟨last, hj⟩ := hcores j
    obtain ⟨last', hfirst⟩ := hcores firstCore
    unfold Pair.nic
    rw [hj, hfirst]
    rfl
  · obtain ⟨⟨nic, hcores⟩, -⟩ := hprog i
    obtain ⟨last, hj⟩ := hcores j
    exact ⟨[], Machine.run_nil.mpr ⟨nic, last, hj⟩⟩
  · obtain ⟨-, -, -, -, -, hworkers, -⟩ := hprog i
    unfold Pair.pending Program.burst at hp
    rw [hworkers, hqueue] at hp
    cases hp

/-! ## Only the home of a flow has to do with it -/

theorem actionInput_some {env : Env} {c : TcpList n} {j : Fin (n + 1)} {a : Action} {x : Input}
    (h : actionInput env c j a = some x) :
    (∃ dip dport sport, x.op = .connect dip dport sport) ∧ j = firstCore ∨
      ∀ nic, ∃ p, (c j).tcp.rteHash.lookup (keyOf nic x) = some p := by
  cases a with
  | onFlow cmd q =>
    simp only [actionInput] at h
    split at h
    · cases h
    · rename_i i p hl
      by_cases hij : i = j
      · subst hij
        rw [if_pos rfl] at h
        obtain ⟨op, hop, rfl⟩ := Option.map_eq_some_iff.mp h
        refine Or.inr fun nic => ⟨p, ?_⟩
        cases cmd with
        | flow => cases hop
        | close =>
          cases hop
          exact (lookFlow_some hl).1
        | send data =>
          cases hop
          exact (lookFlow_some hl).1
      · rw [if_neg hij] at h
        cases h
  | connect dip dport sport =>
    simp only [actionInput] at h
    by_cases hj : j = firstCore
    · rw [if_pos hj] at h
      cases h
      exact Or.inl ⟨⟨_, _, _, rfl⟩, hj⟩
    · rw [if_neg hj] at h
      cases h
  | nothing => cases h
  | launch => cases h
  | quit => cases h
  | dump => cases h
  | exit => cases h
  | crash => cases h

theorem coreInput_some {s : Program n} {t : ProgramTurn n} {j : Fin (n + 1)} {x : Input}
    (h : coreInput j s t = some x) : (∃ p, x.op = .rx p) ∨
      (∃ dip dport sport, x.op = .connect dip dport sport) ∧ j = firstCore ∨
      ∀ nic, ∃ p, (s.cores j).tcp.rteHash.lookup (keyOf nic x) = some p := by
  cases t with
  | handler _ => cases h
  | signal => cases h
  | worker i bufs =>
    simp only [coreInput] at h
    split at h
    · by_cases hij : i = j
      · rw [if_pos hij] at h
        cases h
        exact Or.inl ⟨_, rfl⟩
      · rw [if_neg hij] at h
        cases h
    · cases h
  | main client ok ev env stale =>
    simp only [coreInput] at h
    split at h
    · exact Or.inr (actionInput_some h)
    · cases h

def Pair.Away (r : Side → Rss n) (φ : Flow) (s : Pair n) : Prop :=
  ∀ i j, j ≠ s.home r φ i → ∀ q, q.SameFlow (φ.key s.nic i) → ((s.prog i).cores j).conn q = none

variable {tr : List (pairMachine K r).Event} {j : Fin (n + 1)} {x : Input}

theorem pending_head (h : pairInput e j = some x) {p : Packet} (hop : x.op = .rx p) :
    e.pre.pending e.input.1 j = p :: e.post.pending e.input.1 j := by
  rw [pending_own, h]
  simp [hop, Op.packet?]

/-- The queue brings its segments to the home, `connect` is the left user's, and `close` and `send`
are for a connection that is there. -/
theorem at_home (h : e.pre.Sound K r) (haway : e.pre.Away r φ)
    (hleft : e.pre.home r φ .left = firstCore) (hp : PairPolite φ tr e) (hx : pairInput e j = some x)
    (hflow : (keyOf (e.pre.nic e.input.1) x).SameFlow (φ.key e.pre.nic e.input.1)) :
    j = e.pre.home r φ e.input.1 := by
  have hallowed := hp j x hx hflow
  rcases coreInput_some hx with ⟨p, hop⟩ | ⟨⟨dip, dport, sport, hop⟩, hj⟩ | hlookup
  · have hmem : p ∈ e.pre.pending e.input.1 j := by
      rw [pending_head hx hop]
      exact List.mem_cons_self ..
    rw [← h.queues _ j p hmem]
    unfold keyOf at hflow
    rw [hop] at hflow
    exact hflow.queue (r e.input.1)
  · unfold wireInput at hallowed
    rw [if_pos hflow, hop] at hallowed
    obtain ⟨-, -, -, hproper⟩ := hallowed
    rw [hop] at hproper
    rw [hj, hproper.1]
    exact hleft.symm
  · by_contra hne
    obtain ⟨p, hl⟩ := hlookup (e.pre.nic e.input.1)
    obtain ⟨c, hr, -⟩ := h.rep _ j _ p hl
    cases (haway _ j hne _ hflow).symm.trans (conn_of_lookup hl hr)

theorem home_same (h : e.pre.Sound K r) : e.post.home r φ = e.pre.home r φ := by
  funext i
  unfold Pair.home
  rw [pair_nic h]

theorem event_away (h : e.pre.Sound K r) (haway : e.pre.Away r φ)
    (hleft : e.pre.home r φ .left = firstCore) (hp : PairPolite φ tr e) : e.post.Away r φ := by
  intro i j hj q hq
  rw [home_same h] at hj
  rw [pair_nic h] at hq
  rcases core_steps e i j with hsame | ⟨rfl, x, hx, hs⟩
  · rw [hsame]
    exact haway i j hj q hq
  · obtain ⟨o, ht, -⟩ := step_slot (h.rep _ j) hs
    by_cases hkey : q = keyOf ((e.pre.prog e.input.1).cores j).tcp.nic x
    · rw [h.nics] at hkey
      rw [hkey] at hq
      exact absurd (at_home h haway hleft hp hx hq) hj
    · rw [ht.others q hkey]
      exact haway _ j hj q hq

/-! ## The frames -/

theorem event_frames (h : e.pre.Sound K r) (hx : pairInput e j = some x) :
    ∀ f ∈ e.out.frames, f.route = (keyOf (e.pre.nic e.input.1) x).route := by
  have hs := (event_cores e).some_step hx
  obtain ⟨xs, hr⟩ := h.reached e.input.1 j
  obtain ⟨o, -, hslot⟩ := step_slot (run_rep hr) hs
  rw [← h.nics e.input.1 j]
  exact slot_route hslot (fun c hc => (run_rep hr).key hc) fun c hc => run_conn slot_routed hr _ c hc

theorem route_flow {f : Frame} {q : Quad} (h : f.route = q.route) (φ : Flow) (nic : Side → Nic)
    (i : Side) : f.packet.quad.SameFlow (φ.key nic i.other) ↔ q.SameFlow (φ.key nic i) := by
  have hsrc : f.ipv4.srcAddr = q.dip := congrArg Route.srcAddr h
  have hdst : f.ipv4.dstAddr = q.sip := congrArg Route.dstAddr h
  have hsport : f.tcp.srcPort = q.dport := congrArg Route.srcPort h
  have hdport : f.tcp.dstPort = q.sport := congrArg Route.dstPort h
  have hquad : f.packet.quad = ⟨q.dip, q.dport, q.sip, q.sport, 0⟩ := by
    rw [← hsrc, ← hdst, ← hsport, ← hdport]
    rfl
  rw [hquad]
  unfold Quad.SameFlow
  cases i with
  | left => exact ⟨fun ⟨a, b, c, d⟩ => ⟨c, d, a, b⟩, fun ⟨a, b, c, d⟩ => ⟨c, d, a, b⟩⟩
  | right => exact ⟨fun ⟨a, b, c, d⟩ => ⟨c, d, a, b⟩, fun ⟨a, b, c, d⟩ => ⟨c, d, a, b⟩⟩

section
variable {rss : Rss n} {q : Quad} {out : Out}

/-- The frames of the flow that arrive at its home are all there are of it. -/
theorem arrivals_all (h : ∀ f ∈ out.frames, f.packet.quad.SameFlow q) :
    (arrivals rss (rss.queue q) out).filter (fun p => p.quad.SameFlow q) =
      out.frames.map Frame.packet := by
  unfold arrivals
  rw [List.filter_filter, List.filter_eq_self]
  intro p hp
  obtain ⟨f, hf, rfl⟩ := List.mem_map.mp hp
  have hqueue : rss.packet f.packet = rss.queue q := (h f hf).queue rss
  simp [h f hf, hqueue]

theorem arrivals_none {j : Fin (n + 1)} (h : ∀ f ∈ out.frames, ¬f.packet.quad.SameFlow q) :
    (arrivals rss j out).filter (fun p => p.quad.SameFlow q) = [] := by
  unfold arrivals
  rw [List.filter_filter, List.filter_eq_nil_iff]
  intro p hp
  obtain ⟨f, hf, rfl⟩ := List.mem_map.mp hp
  simp [h f hf]

end

/-! ## The flow on its wire -/

theorem net_node (h : e.pre.Sound K r) : (e.post.net r φ).node =
    Function.update (e.pre.net r φ).node e.input.1
      ((e.post.prog e.input.1).cores (e.pre.home r φ e.input.1)) := by
  funext i
  show (e.post.prog i).cores (e.post.home r φ i) = _
  rw [home_same h]
  rcases e.input.1.eq_or_other i with rfl | rfl
  · rw [Function.update_self]
  · rw [Function.update_of_ne (Side.other_ne _), (event_prog e).2.1]
    rfl

theorem toward_other (h : e.pre.Sound K r) : (e.post.net r φ).toward e.input.1.other =
    (e.pre.net r φ).toward e.input.1.other ++
      (arrivals (r e.input.1.other) (e.pre.home r φ e.input.1.other) e.out).filter
        fun p => p.quad.SameFlow (φ.key e.pre.nic e.input.1.other) := by
  show (e.post.pending _ (e.post.home r φ _)).filter _ = _
  rw [home_same h, pair_nic h, pending_other, List.filter_append]
  rfl

theorem toward_own (h : e.pre.Sound K r) : (e.post.net r φ).toward e.input.1 =
    (e.post.pending e.input.1 (e.pre.home r φ e.input.1)).filter
      fun p => p.quad.SameFlow (φ.key e.pre.nic e.input.1) := by
  show (e.post.pending _ (e.post.home r φ _)).filter _ = _
  rw [home_same h, pair_nic h]

theorem net_eq (h : e.pre.Sound K r) {toward : Side → List Packet}
    (hw : (e.post.net r φ).toward = toward) : e.post.net r φ =
      ⟨Function.update (e.pre.net r φ).node e.input.1
        ((e.post.prog e.input.1).cores (e.pre.home r φ e.input.1)), toward⟩ := by
  rw [← net_node h, ← hw]

/-- Nothing is taken off the wire. -/
theorem toward_same (h : e.pre.Sound K r)
    (hx : ∀ p, ((pairInput e (e.pre.home r φ e.input.1)).bind (·.op.packet?)) = some p →
      ¬p.quad.SameFlow (φ.key e.pre.nic e.input.1)) :
    (e.post.net r φ).toward e.input.1 = (e.pre.net r φ).toward e.input.1 := by
  rw [toward_own h]
  show _ = (e.pre.pending _ _).filter _
  rw [pending_own, List.filter_append]
  cases hp : (pairInput e (e.pre.home r φ e.input.1)).bind (·.op.packet?) with
  | none => rfl
  | some p => simp [hx p hp]

theorem net_same (h : e.pre.Sound K r) (haway : e.pre.Away r φ)
    (hleft : e.pre.home r φ .left = firstCore) (hp : PairPolite φ tr e)
    (hnone : wireEvent φ e = none) : e.post.net r φ = e.pre.net r φ := by
  have hx : pairInput e (e.pre.home r φ e.input.1) = none := Option.map_eq_none_iff.mp hnone
  have hcores := event_cores e
  have hnode : (e.post.net r φ).node = (e.pre.net r φ).node := by
    rw [net_node h, hcores.none_same hx]
    exact Function.update_eq_self ..
  -- what another core of the side sends is not of the flow
  have hout : ∀ f ∈ e.out.frames, ¬f.packet.quad.SameFlow (φ.key e.pre.nic e.input.1.other) := by
    intro f hf hflow
    rcases hcores.mover with hempty | ⟨j, x, hj⟩
    · rw [hempty] at hf
      cases hf
    · have hhome := at_home h haway hleft hp hj ((route_flow (event_frames h hj f hf) ..).mp hflow)
      rw [hhome, hx] at hj
      cases hj
  have htoward : (e.post.net r φ).toward = (e.pre.net r φ).toward := by
    refine funext ((Side.forall_iff e.input.1).mpr ⟨toward_same h (by simp [hx]), ?_⟩)
    rw [toward_other h, arrivals_none hout, List.append_nil]
  show (⟨_, _⟩ : Duplex.Net Core Packet) = ⟨_, _⟩
  exact congr (congrArg _ hnode) htoward

theorem take_node (h : e.pre.Sound K r) (hx : pairInput e (e.pre.home r φ e.input.1) = some x)
    (toward : Out → Side → List Packet) (hw : (e.post.net r φ).toward = toward e.out) :
    (e.pre.net r φ).take (M := machine K) e.input.1 x toward = some (e.post.net r φ, e.out) := by
  have hs : step K ((e.pre.net r φ).node e.input.1) x = some (_, e.out) :=
    (event_cores e).some_step hx
  rw [net_eq h hw]
  unfold Duplex.Net.take
  rw [show (machine K).step _ x = _ from hs]
  rfl

/-- What a core sends in answer to an input of the flow is of the flow. -/
theorem toward_sends (h : e.pre.Sound K r) (hx : pairInput e (e.pre.home r φ e.input.1) = some x)
    (hflow : (keyOf (e.pre.nic e.input.1) x).SameFlow (φ.key e.pre.nic e.input.1)) :
    (e.post.net r φ).toward =
      (e.pre.net r φ).sends (link K) e.input.1 ((e.post.net r φ).toward e.input.1) e.out := by
  refine funext ((Side.forall_iff e.input.1).mpr ⟨?_, ?_⟩)
  · unfold Duplex.Net.sends
    rw [Function.update_of_ne (Side.ne_other _), Function.update_self]
  · unfold Duplex.Net.sends
    rw [Function.update_self, toward_other h]
    exact congrArg _ (arrivals_all fun f hf => (route_flow (event_frames h hx f hf) ..).mpr hflow)

theorem flow_step (h : e.pre.Sound K r) (hx : pairInput e (e.pre.home r φ e.input.1) = some x)
    (hflow : (keyOf (e.pre.nic e.input.1) x).SameFlow (φ.key e.pre.nic e.input.1)) :
    (cable K).step (e.pre.net r φ) (wireInput φ e.pre.nic e.input.1 x) =
      some (e.post.net r φ, e.out) := by
  have hsends := toward_sends h hx hflow
  unfold wireInput
  rw [if_pos hflow]
  cases hop : x.op with
  | rx p =>
    have hpacket : p.quad.SameFlow (φ.key e.pre.nic e.input.1) := by
      unfold keyOf at hflow
      rw [hop] at hflow
      exact hflow
    have hhead : (e.pre.net r φ).toward e.input.1 = p :: (e.post.net r φ).toward e.input.1 := by
      rw [toward_own h]
      show (e.pre.pending _ _).filter _ = _
      rw [pending_head hx hop, List.filter_cons, if_pos (decide_eq_true hpacket)]
    have hrecv : (link K).recv x.env p = x := by
      obtain ⟨op, env⟩ := x
      cases hop
      rfl
    show (Duplex.wire (link K)).step _ _ = _
    simp only [Duplex.wire, hhead, hrecv]
    exact take_node h hx _ hsends
  | connect dip dport sport =>
    rw [toward_same h (by simp [hx, hop, Op.packet?])] at hsends
    exact take_node h hx _ hsends
  | close q =>
    rw [toward_same h (by simp [hx, hop, Op.packet?])] at hsends
    exact take_node h hx _ hsends
  | send q data =>
    rw [toward_same h (by simp [hx, hop, Op.packet?])] at hsends
    exact take_node h hx _ hsends

theorem aside_step (h : e.pre.Sound K r) (hx : pairInput e (e.pre.home r φ e.input.1) = some x)
    (hflow : ¬(keyOf (e.pre.nic e.input.1) x).SameFlow (φ.key e.pre.nic e.input.1)) :
    (cable K).step (e.pre.net r φ) (wireInput φ e.pre.nic e.input.1 x) =
      some (e.post.net r φ, e.out) := by
  have hout : ∀ f ∈ e.out.frames, ¬f.packet.quad.SameFlow (φ.key e.pre.nic e.input.1.other) :=
    fun f hf => mt (route_flow (event_frames h hx f hf) ..).mp hflow
  unfold wireInput
  rw [if_neg hflow]
  refine take_node h hx (fun _ => (e.pre.net r φ).toward)
    (funext ((Side.forall_iff e.input.1).mpr ⟨toward_same h ?_, ?_⟩))
  · intro p hp
    rw [hx] at hp
    obtain ⟨op, env⟩ := x
    cases op with
    | rx p' =>
      cases hp
      exact hflow
    | connect dip dport sport => cases hp
    | close q => cases hp
    | send q data => cases hp
  · rw [toward_other h, arrivals_none hout, List.append_nil]

theorem net_step (h : e.pre.Sound K r) (hx : pairInput e (e.pre.home r φ e.input.1) = some x) :
    (cable K).step (e.pre.net r φ) (wireInput φ e.pre.nic e.input.1 x) =
      some (e.post.net r φ, e.out) := by
  by_cases hflow : (keyOf (e.pre.nic e.input.1) x).SameFlow (φ.key e.pre.nic e.input.1)
  · exact flow_step h hx hflow
  · exact aside_step h hx hflow

/-! ## Runs -/

variable (φ) in
theorem net_nics {s : Pair n} (h : s.Sound K r) : nics (s.net r φ) = s.nic :=
  funext fun i => h.nics i _

/-- What the users may do on the wire is what they may do in the program. -/
theorem wire_polite (h : e.pre.Sound K r) (hp : PairPolite φ tr e)
    (hx : pairInput e (e.pre.home r φ e.input.1) = some x) :
    Allowed φ (typed φ tr) (e.pre.net r φ) (wireInput φ e.pre.nic e.input.1 x) := by
  by_cases hflow : (keyOf (e.pre.nic e.input.1) x).SameFlow (φ.key e.pre.nic e.input.1)
  · exact hp _ x hx hflow
  · unfold wireInput
    rw [if_neg hflow]
    show keyOf (nics (e.pre.net r φ) e.input.1) x ≠ φ.key (nics (e.pre.net r φ)) e.input.1
    rw [net_nics φ h]
    intro hkey
    rw [hkey] at hflow
    exact hflow ⟨rfl, rfl, rfl, rfl⟩

theorem commands_typed {tr : List (pairMachine K r).Event} {xs : List (cable K).Event}
    (hio : xs.map Machine.Event.io = tr.filterMap (wireEvent φ)) : commands xs = typed φ tr := by
  unfold commands typed
  rw [← hio, List.filterMap_map]
  rfl

theorem init_net {s : Pair n} (h0 : (pairMachine K r).init s) :
    (cable K).init (s.net r φ) ∧ s.Away r φ := by
  obtain ⟨hprog, hqueue⟩ := h0
  refine ⟨⟨fun i => ?_, fun i => ?_⟩, fun i j _ q _ => ?_⟩
  · obtain ⟨⟨nic, hcores⟩, -⟩ := hprog i
    obtain ⟨last, hj⟩ := hcores (s.home r φ i)
    exact ⟨nic, last, hj⟩
  · obtain ⟨-, -, -, -, -, hworkers, -⟩ := hprog i
    show (s.pending i _).filter _ = []
    unfold Pair.pending Program.burst
    rw [hworkers, hqueue]
    rfl
  · obtain ⟨⟨nic, hcores⟩, -⟩ := hprog i
    obtain ⟨last, hj⟩ := hcores j
    rw [hj]
    rfl

/-- A flow between two programs, which the left user opens and whose frames RSS brings to the
first core of the left side, is a run of two cores on a wire, whatever else the programs do. -/
theorem pair_refines {tr : List (pairMachine K r).Event} {s : Pair n} (h : Machine.Run tr s) :
    s.home r φ .left = firstCore → Machine.Meets (PairPolite φ) tr → s.Away r φ ∧
      ∃ xs : List (cable K).Event, Machine.Run xs (s.net r φ) ∧
        xs.map Machine.Event.io = tr.filterMap (wireEvent φ) ∧ Machine.Meets (Polite φ) xs := by
  refine Machine.Run.induct (P := fun tr s => s.home r φ .left = firstCore →
    Machine.Meets (PairPolite φ) tr → s.Away r φ ∧ ∃ xs : List (cable K).Event,
      Machine.Run xs (s.net r φ) ∧ xs.map Machine.Event.io = tr.filterMap (wireEvent φ) ∧
      Machine.Meets (Polite φ) xs) ?_ ?_ h
  · intro s h0 _ _
    obtain ⟨hnet, haway⟩ := init_net (φ := φ) h0
    exact ⟨haway, [], Machine.run_nil.mpr hnet, rfl, fun _ _ _ h => by simp at h⟩
  · intro tr e hr ih hleft hp
    rw [Machine.meets_snoc] at hp
    have hsound := run_sound hr
    rw [home_same hsound] at hleft
    obtain ⟨haway, xs, hxs, hio, hpolite⟩ := ih hleft hp.1
    refine ⟨event_away hsound haway hleft hp.2, ?_⟩
    rw [List.filterMap_append]
    cases hw : wireEvent φ e with
    | none =>
      refine ⟨xs, ?_, by simp [hw, hio], hpolite⟩
      rw [net_same hsound haway hleft hp.2 hw]
      exact hxs
    | some y =>
      obtain ⟨x, hx, rfl⟩ := Option.map_eq_some_iff.mp hw
      have hstep := net_step hsound hx
      refine ⟨xs ++ [⟨_, _, _, _, hstep⟩], Machine.run_snoc.mpr ⟨hxs, rfl⟩, ?_, ?_⟩
      · simp [hw, hio, Machine.Event.io]
      · refine Machine.meets_snoc.mpr ⟨hpolite, ?_⟩
        show Allowed φ (commands xs) _ _
        rw [commands_typed hio]
        exact wire_polite hsound hp.2 hx

variable (r φ) in
def pairSight (tr : List (pairMachine K r).Event) (s : Pair n) : Sight where
  nic := s.nic
  conn i := (s.net r φ).node i |>.conn (φ.key s.nic i)
  toward := (s.net r φ).toward
  said := typedText φ tr
  heard := printedText φ tr

theorem sight_pair {tr : List (pairMachine K r).Event} {s : Pair n} (hs : s.Sound K r)
    {xs : List (cable K).Event} (hio : xs.map Machine.Event.io = tr.filterMap (wireEvent φ)) :
    sight φ xs (s.net r φ) = pairSight r φ tr s := by
  have hnic := net_nics φ hs
  refine Sight.ext hnic (funext fun i => ?_) rfl (funext fun i => ?_) (funext fun i => ?_)
  · show ((s.net r φ).node i).conn (φ.key (nics _) i) = _
    rw [hnic]
    rfl
  · show (commands xs).flatMap _ = _
    rw [commands_typed hio]
    rfl
  · show xs.flatMap _ = (tr.filterMap (wireEvent φ)).flatMap _
    rw [← hio, List.flatMap_map]
    rfl

/-- What the user of one program has printed on the terminal of the other, by lines on its
panel, and what becomes of the flow: as between two cores on a wire. -/
theorem pair_session {tr : List (pairMachine K r).Event} {s : Pair n} (h : Machine.Run tr s)
    (hleft : s.home r φ .left = firstCore) (hj : Joined s.nic)
    (hp : Machine.Meets (PairPolite φ) tr) : (pairSight r φ tr s).Sessions (typed φ tr) := by
  obtain ⟨-, xs, hxs, hio, hpolite⟩ := pair_refines h hleft hp
  have hsound := run_sound h
  rw [← net_nics φ hsound] at hj
  obtain ⟨st, hshows, hidle, hclose, -⟩ := run_stands hxs hj hpolite
  rw [← commands_typed hio, ← sight_pair hsound hio]
  exact shows_sessions hshows hidle hclose

end

end

end

/-! ## On two hosts -/

instance {n : Nat} {K : RteCksum} {r : Side → Rss n} (φ : Flow) (tr : List (pairMachine K r).Event)
    (e : (pairMachine K r).Event) : Decidable (PairPolite φ tr e) :=
  decidable_of_iff (∀ j, ∀ x ∈ pairInput e j,
    (keyOf (e.pre.nic e.input.1) x).SameFlow (φ.key e.pre.nic e.input.1) →
      Allowed φ (typed φ tr) (e.pre.net r φ) (wireInput φ e.pre.nic e.input.1 x)) Iff.rfl

def twoPrograms : Pair 0 where
  prog i := { programHost with cores := fun _ => hostAndPeer.node i }
  queue _ _ := []

theorem twoPrograms_init (K : RteCksum) (r : Side → Rss 0) : (pairMachine K r).init twoPrograms := by
  refine ⟨fun i => ⟨⟨((hostAndPeer.node i).tcp.nic), fun _ => ⟨0, ?_⟩⟩, rfl, rfl, fun _ => rfl, rfl,
    fun _ => rfl, rfl⟩, fun _ _ => rfl⟩
  cases i <;> rfl

def oneQueue : Side → Rss 0 := fun _ => ⟨fun _ _ _ _ => Fin.last 0⟩

/-- Once round the loop of `main`, with a line to read. -/
def typesIn (i : Side) (line : String) : List (Side × PairTurn 0) :=
  [none, none, some (typesLine line), none, none].map fun ev =>
    (i, .main true true ev calm fun _ => [])

/-- Once round the loop of the worker, with one packet in its queue. -/
def receivesIn (i : Side) : List (Side × PairTurn 0) :=
  [[], [calm], [], []].map fun envs => (i, .worker (Fin.last 0) envs)

def typedHello : List (Side × PairTurn 0) :=
  typesIn .left "connect 10.0.0.2 40000\n" ++ receivesIn .right ++ receivesIn .left ++
    receivesIn .right ++ typesIn .left "send 10.0.0.2 40000 10.0.0.1 8000 hi\n" ++ receivesIn .right ++
    receivesIn .left

theorem pair_session_hello : ∃ (tr : List (pairMachine rfcCksum oneQueue).Event) (s : Pair 0),
    Machine.Run tr s ∧ printedText someFlow tr .right = ascii "hi" ∧
      (typed someFlow tr).length = 2 ∧ (pairSight oneQueue someFlow tr s).Sessions (typed someFlow tr) := by
  obtain ⟨tr, s, hr, hQ⟩ := Machine.exists_run (twoPrograms_init rfcCksum oneQueue) typedHello
    (Q := fun r => Joined r.2.nic ∧
      (∀ m, (hm : m < r.1.length) → PairPolite someFlow (r.1.take m) (r.1.get ⟨m, hm⟩)) ∧
      printedText someFlow r.1 .right = ascii "hi" ∧ (typed someFlow r.1).length = 2)
    (by decide +kernel)
  obtain ⟨hj, hp, hprinted, htyped⟩ := of_decide_eq_true hQ
  have hleft : s.home oneQueue someFlow .left = firstCore := Subsingleton.elim (α := Fin 1) ..
  exact ⟨tr, s, hr, hprinted, htyped, pair_session hr hleft hj (Machine.meets_iff_take.mpr hp)⟩

end TcpDpdk
