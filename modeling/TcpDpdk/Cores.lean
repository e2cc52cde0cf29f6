import TcpDpdk.Creation
import TcpDpdk.Host
import TcpDpdk.Keys
import TcpDpdk.Lib.Network

/-!
# Several cores

Each worker polls a receive queue of its own and has a table of its own; RSS chooses
the queue from the four fields of a segment. The commands on a flow look through all
the tables, `connect` looks in the first one only and puts its connection there.
Every core of such a system is a core by itself, `run_cores`, so what holds of one
in any run holds of each.
-/

namespace TcpDpdk

/-- `tcp_list`; there is at least one worker. -/
abbrev TcpList (n : Nat) := Fin (n + 1) → Core

/-- The queue RSS chooses, from source and destination. -/
structure Rss (n : Nat) where
  queueId : BitVec 32 → BitVec 16 → BitVec 32 → BitVec 16 → Fin (n + 1)

def Rss.queue {n : Nat} (r : Rss n) (q : Quad) : Fin (n + 1) := r.queueId q.sip q.sport q.dip q.dport

theorem Quad.SameFlow.queue {n : Nat} {q x : Quad} (h : q.SameFlow x) (r : Rss n) :
    r.queue q = r.queue x := by
  obtain ⟨h1, h2, h3, h4⟩ := h
  unfold Rss.queue
  rw [h1, h2, h3, h4]

section
variable {n : Nat}

/-- The core of `tcp_list[0]`. -/
abbrev firstCore : Fin (n + 1) := 0

def firstWith (c : TcpList n) (q : Quad) : Option (Fin (n + 1)) :=
  (List.finRange (n + 1)).find? fun j => ((c j).tcp.rteHash.lookup q).isSome

/-- The core that takes the step, if any does. -/
def coreOf (r : Rss n) (c : TcpList n) (i : Input) : Option (Fin (n + 1)) :=
  match i.op with
  | .rx p => some (r.queueId p.ipv4.srcAddr p.tcp.srcPort p.ipv4.dstAddr p.tcp.dstPort)
  | .connect _ _ _ => some firstCore
  | .close q => firstWith c { q with pad := i.env.pad }
  | .send q _ => firstWith c { q with pad := i.env.pad }

def coresStep (K : RteCksum) (r : Rss n) (c : TcpList n) (i : Input) : Option (TcpList n × Out) :=
  match coreOf r c i with
  | none => some (c, {}) -- connection not found
  | some j => (step K (c j) i).map fun (k, out) => (Function.update c j k, out)

/-- `config_init` gives every core the same addresses. -/
def coresMachine (K : RteCksum) (r : Rss n) : Machine (TcpList n) Input Out where
  init c := ∃ nic, ∀ j, ∃ last, c j = initializeTcp nic last
  step := coresStep K r

section
variable {K : RteCksum} {r : Rss n} {c c' : TcpList n} {i : Input} {out : Out}

theorem coresStep_some (h : coresStep K r c i = some (c', out)) :
    coreOf r c i = none ∧ c' = c ∨ ∃ j k, coreOf r c i = some j ∧
      step K (c j) i = some (k, out) ∧ c' = Function.update c j k := by
  unfold coresStep at h
  split at h
  · rename_i hn
    cases h
    exact Or.inl ⟨hn, rfl⟩
  · rename_i j hj
    obtain ⟨⟨k, out'⟩, hk, he⟩ := Option.map_eq_some_iff.mp h
    cases he
    exact Or.inr ⟨j, k, hj, hk, rfl⟩

theorem run_cores {tr : List (coresMachine K r).Event} (h : Machine.Run tr c) (j : Fin (n + 1)) :
    ∃ tr : List (machine K).Event, Machine.Run tr (c j) := by
  refine Machine.Run.inv (P := fun c => ∀ j, ∃ tr : List (machine K).Event, Machine.Run tr (c j))
    ?_ ?_ h j
  · intro c ⟨nic, hc⟩ j
    obtain ⟨last, hj⟩ := hc j
    exact ⟨[], Machine.run_nil.mpr ⟨nic, last, hj⟩⟩
  · intro e ih j
    rcases coresStep_some e.fired with ⟨-, hsame⟩ | ⟨i, k, -, hk, hpost⟩
    · rw [hsame]
      exact ih j
    · rw [hpost]
      exact Network.reached_update ih (M := machine K) hk j

theorem run_cores_rep {tr : List (coresMachine K r).Event} (h : Machine.Run tr c) (j : Fin (n + 1)) :
    (c j).Rep := by
  obtain ⟨_, hr⟩ := run_cores h j
  exact run_rep hr

end

/-! ## Where an entry is -/

/-- Every entry is with the core RSS sends its segments to. -/
def Placed (r : Rss n) (c : TcpList n) : Prop :=
  ∀ j q p, (c j).tcp.rteHash.lookup q = some p → j = r.queue q

structure WellPlaced (r : Rss n) (c : TcpList n) : Prop where
  placed : Placed r c
  once : ∀ j j' q q' p p', (c j).tcp.rteHash.lookup q = some p →
    (c j').tcp.rteHash.lookup q' = some p' → q.SameFlow q' → j = j'
  replies : ∀ j q p, (c j).tcp.rteHash.lookup q = some p → ∀ pkt env,
    (keyOf (c j).tcp.nic ⟨.rx pkt, env⟩).SameFlow q → coreOf r c ⟨.rx pkt, env⟩ = some j

theorem Placed.well {r : Rss n} {c : TcpList n} (h : Placed r c) : WellPlaced r c where
  placed := h
  once j j' q q' p p' hl hl' hs := by
    rw [h j q p hl, h j' q' p' hl']
    exact hs.queue r
  replies j q p hl pkt env hs := by
    rw [h j q p hl, ← hs.queue r]
    rfl

section
variable {K : RteCksum} {r : Rss n}

/-- A `connect` that makes a connection makes it for a quad of the first core. -/
def ConnectsHome (e : (coresMachine K r).Event) : Prop :=
  ∀ dip dport sport, e.input.op = .connect dip dport sport → Attempts (e.pre 0) e.input →
    (e.pre 0).tcp.rteHash.Room (keyOf (e.pre 0).tcp.nic e.input) →
    r.queue (keyOf (e.pre 0).tcp.nic e.input) = 0

theorem coreOf_attempt {c : TcpList n} {i : Input} {j : Fin (n + 1)} (hj : coreOf r c i = some j)
    (ha : Attempts (c j) i) : j = r.queue (keyOf (c j).tcp.nic i) ∨
      ∃ dip dport sport, i.op = .connect dip dport sport ∧ j = 0 := by
  obtain ⟨op, env⟩ := i
  cases op with
  | rx p => exact Or.inl (Option.some.inj hj).symm
  | connect dip dport sport => exact Or.inr ⟨dip, dport, sport, rfl, (Option.some.inj hj).symm⟩
  | close q => cases ha.2
  | send q data => cases ha.2

theorem step_lookup {k k' : Core} {i : Input} {out : Out} (hrep : k.Rep)
    (hw : step K k i = some (k', out)) {q : Quad} {p : Nat} (hl : k'.tcp.rteHash.lookup q = some p) :
    (∃ p', k.tcp.rteHash.lookup q = some p') ∨ q = keyOf k.tcp.nic i ∧ Attempts k i ∧
      k.tcp.rteHash.Room q := by
  cases hpre : k.tcp.rteHash.lookup q with
  | some p' => exact Or.inl ⟨p', rfl⟩
  | none =>
    obtain ⟨o, ht, -⟩ := step_slot hrep hw
    obtain ⟨c, hr, -⟩ := ht.rep q p hl
    exact Or.inr (step_new hrep hw (conn_none hpre) (conn_of_lookup hl hr))

theorem event_placed {e : (coresMachine K r).Event} (hrep : ∀ j, (e.pre j).Rep)
    (hpre : Placed r e.pre) : Placed r e.post ↔ ConnectsHome e := by
  constructor
  · intro hpost dip dport sport hop ha hroom
    have h0 : coreOf r e.pre e.input = some 0 := by unfold coreOf; rw [hop]
    rcases coresStep_some e.fired with ⟨hn, -⟩ | ⟨j, k, hj, hk, hupd⟩
    · cases hn.symm.trans h0
    · obtain rfl : j = 0 := Option.some.inj (hj.symm.trans h0)
      obtain ⟨_, c, _, m, _, -, -, -, rfl, -⟩ := step_attempt ha hk
      refine (hpost 0 (keyOf (e.pre 0).tcp.nic e.input) (e.pre 0).heap.next ?_).symm
      rw [hupd, Function.update_self]
      exact Store.Table.lookup_add hroom
  · intro hhome j q p hl
    rcases coresStep_some e.fired with ⟨-, hsame⟩ | ⟨i, k, hi, hk, hupd⟩
    · rw [hsame] at hl
      exact hpre j q p hl
    · rw [hupd] at hl
      by_cases hji : j = i
      · subst hji
        rw [Function.update_self] at hl
        rcases step_lookup (hrep j) hk hl with ⟨p', hold⟩ | ⟨rfl, ha, hroom⟩
        · exact hpre j q p' hold
        · rcases coreOf_attempt hi ha with hq | ⟨dip, dport, sport, hop, rfl⟩
          · exact hq
          · exact (hhome dip dport sport hop ha hroom).symm
      · rw [Function.update_of_ne hji] at hl
        exact hpre j q p hl

/-- For every RSS map and every number of cores: in every run every entry is with the
core its segments go to, so with one core at most and found by the replies, exactly if
`connect` makes connections only for quads that RSS sends to the first core. -/
theorem wellPlaced_iff {tr : List (coresMachine K r).Event} {c : TcpList n} (h : Machine.Run tr c) :
    (∀ e ∈ tr, WellPlaced r e.post) ↔ ∀ e ∈ tr, ConnectsHome e := by
  have both : (∀ e ∈ tr, Placed r e.post) ↔ ∀ e ∈ tr, ConnectsHome e := by
    rw [← Machine.meets_mem, ← Machine.meets_mem]
    refine Machine.Run.meets_iff_inv (I := fun _ c => Placed r c) ?_ ?_ ?_ h
    · intro c ⟨nic, hc⟩ j q p hl
      obtain ⟨last, hj⟩ := hc j
      rw [hj] at hl
      cases hl
    · intro tr e hr hI
      exact event_placed (run_cores_rep hr) hI
    · intro tr e hr hI hD
      exact (event_placed (run_cores_rep hr) hI).mpr hD
  rw [← both]
  exact forall_congr' fun e => forall_congr' fun _ => ⟨WellPlaced.placed, Placed.well⟩

end

end

/-! ## On the host -/

def twoWorkers : TcpList 1 := fun _ => host

theorem twoWorkers_init (K : RteCksum) (r : Rss 1) : (coresMachine K r).init twoWorkers :=
  ⟨hostNic, fun _ => ⟨0, rfl⟩⟩

def rssTo (j : Fin 2) : Rss 1 := ⟨fun _ _ _ _ => j⟩

theorem wellPlaced_iff_connect : ∃ (tr : List (coresMachine rfcCksum (rssTo 0)).Event) (c : TcpList 1),
    Machine.Run tr c ∧ (c 0).tcp.rteHash.lookup peerQuad = some 0 ∧
      ((∀ e ∈ tr, WellPlaced (rssTo 0) e.post) ↔ ∀ e ∈ tr, ConnectsHome e) := by
  obtain ⟨tr, c, hr, hk⟩ := Machine.exists_run (twoWorkers_init rfcCksum (rssTo 0)) [userConnect]
    (Q := fun r => (r.2 0).tcp.rteHash.lookup peerQuad = some 0) (by decide +kernel)
  exact ⟨tr, c, hr, of_decide_eq_true hk, wellPlaced_iff hr⟩

/-- With two cores and a quad that RSS sends to the second one, the connection is in
the first table and the reply comes to the second. -/
theorem not_wellPlaced : ¬∀ (n : Nat) (r : Rss n) (tr : List (coresMachine rfcCksum r).Event)
    (c : TcpList n), Machine.Run tr c → WellPlaced r c := by
  intro h
  obtain ⟨tr, c, hr, hk⟩ := Machine.exists_run (twoWorkers_init rfcCksum (rssTo 1)) [userConnect]
    (Q := fun r => (r.2 0).tcp.rteHash.lookup peerQuad = some 0) (by decide +kernel)
  have hplaced := (h 1 (rssTo 1) tr c hr).placed 0 peerQuad 0 (of_decide_eq_true hk)
  exact absurd hplaced (by decide)

end TcpDpdk
