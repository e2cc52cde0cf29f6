import TcpDpdk.Phases

/-!
# A session of two hosts

Runs of two hosts on one wire whose users are polite. Whatever else the two hosts do,
each end prints what the user of the other one sent, and no command leaves anything
under way for ever.
-/

namespace TcpDpdk

open Duplex (Side)

/-! ## What the users do -/

def commandOf : Duplex.Input Input Env → Option (Side × Op)
  | .act i x => some (i, x.op)
  | _ => none

def printedAt (i : Side) : Duplex.Input Input Env → Out → List Byte
  | .deliver j _, out => if j = i then out.printed else []
  | _, _ => []

def saidBy (i : Side) (a : Side × Op) : List Byte := if a.1 = i then a.2.token else []

section
variable {K : RteCksum}

def commands (tr : List (cable K).Event) : List (Side × Op) :=
  tr.filterMap fun e => commandOf e.input

def said (tr : List (cable K).Event) (i : Side) : List Byte := (commands tr).flatMap (saidBy i)

def heard (tr : List (cable K).Event) (i : Side) : List Byte :=
  tr.flatMap fun e => printedAt i e.input e.out

def closer (tr : List (cable K).Event) : Option Side := (commands tr).findSome? closedBy

end

/-! ## Runs -/

section
variable {K : RteCksum} (φ : Flow)

def nics (n : Duplex.Net Core Packet) : Side → Nic := fun i => (n.node i).tcp.nic

def sight (tr : List (cable K).Event) (n : Duplex.Net Core Packet) : Sight where
  nic := nics n
  conn i := (n.node i).conn (φ.key (nics n) i)
  toward := n.toward
  said := said tr
  heard := heard tr

/-- What DPDK has to give on side `i`: a buffer, memory for a connection and a place for it
in the table. The gaps of the key are as they were. -/
structure Serves (n : Duplex.Net Core Packet) (i : Side) (env : Env) : Prop where
  buffer : env.mbuf = true
  object : env.object ≠ none
  gaps : env.pad = φ.pad i
  room : (n.node i).tcp.rteHash.Room (φ.key (nics n) i)

def Allowed (cmds : List (Side × Op)) (n : Duplex.Net Core Packet) :
    Duplex.Input Input Env → Prop
  | .deliver i env => Serves φ n i env
  | .act i x => Serves φ n i x.env ∧ keyOf (nics n i) x = φ.key (nics n) i ∧
      (∀ j, n.toward j = []) ∧ Proper cmds i x.op
  | .aside i x => keyOf (nics n i) x ≠ φ.key (nics n) i

/-- The users wait until nothing is under way and keep to `Proper`; whatever else a host
does has to do with other flows. -/
def Polite (tr : List (cable K).Event) (e : (cable K).Event) : Prop :=
  Allowed φ (commands tr) e.pre e.input

def isDelivery (e : (cable K).Event) : Bool :=
  match e.input with
  | .deliver _ _ => true
  | _ => false

/-- Since the last command there have been three deliveries at most, with those that may be
`left`. -/
def Spends (tr : List (cable K).Event) (left : Nat) : Prop :=
  ∀ tr₁ tr₂, tr = tr₁ ++ tr₂ → commands tr₂ = [] → tr₂.countP isDelivery + left ≤ 3

variable {tr : List (cable K).Event} {n : Duplex.Net Core Packet} {e : (cable K).Event}

theorem commands_snoc : commands (tr ++ [e]) = commands tr ++ (commandOf e.input).toList := by
  unfold commands
  rw [List.filterMap_append]
  cases h : commandOf e.input <;> simp [h]

theorem said_snoc (i : Side) :
    said (tr ++ [e]) i = said tr i ++ (commandOf e.input).toList.flatMap (saidBy i) := by
  unfold said
  rw [commands_snoc, List.flatMap_append]

theorem heard_snoc (i : Side) : heard (tr ++ [e]) i = heard tr i ++ printedAt i e.input e.out := by
  simp [heard]

theorem closer_snoc :
    closer (tr ++ [e]) = (closer tr).or ((commandOf e.input).toList.findSome? closedBy) := by
  unfold closer
  rw [commands_snoc, List.findSome?_append]

theorem Spends.left_le {left : Nat} (h : Spends tr left) : left ≤ 3 := by
  simpa using h tr [] (List.append_nil _).symm rfl

theorem Spends.snoc {l l' : Nat} (hle : l' ≤ 3)
    (h : commandOf e.input = none → Spends tr l ∧ (if isDelivery e then 1 else 0) + l' ≤ l) :
    Spends (tr ++ [e]) l' := by
  intro tr₁ tr₂ htr hno
  rcases List.eq_nil_or_concat tr₂ with rfl | ⟨xs, x, rfl⟩
  · simpa using hle
  · rw [List.concat_eq_append, ← List.append_assoc] at htr
    obtain ⟨hpre, he⟩ := List.append_inj' htr rfl
    obtain rfl := (List.cons.inj he).1
    rw [List.concat_eq_append, commands_snoc, List.append_eq_nil_iff] at hno
    obtain ⟨hbefore, hspent⟩ := h (by simpa using hno.2)
    have := hbefore tr₁ xs hpre hno.1
    rw [List.concat_eq_append, List.countP_append, List.countP_singleton]
    omega

theorem node_run (h : Machine.Run tr n) (i : Side) :
    ∃ tr' : List (machine K).Event, Machine.Run tr' (n.node i) := Duplex.run_nodes h i

/-- The step one of the cores takes in an event, and what it leaves of the other. -/
theorem event_node (h : Machine.Run tr e.pre) {i : Side} {x : Input} {s : Core}
    (hs : step K (e.pre.node i) x = some (s, e.out))
    (hpost : e.post.node = Function.update e.pre.node i s) :
    e.post.node i = s ∧ e.post.node i.other = e.pre.node i.other ∧ nics e.post = nics e.pre := by
  have hi : e.post.node i = s := by rw [hpost, Function.update_self]
  have ho : e.post.node i.other = e.pre.node i.other := by
    rw [hpost, Function.update_of_ne i.other_ne]
  refine ⟨hi, ho, funext fun j => ?_⟩
  unfold nics
  rcases i.eq_or_other j with rfl | rfl
  · obtain ⟨tr', hr⟩ := node_run h j
    obtain ⟨o, ht, -⟩ := step_slot (run_rep hr) hs
    rw [hi]
    exact ht.nic
  · rw [ho]

/-- A step of side `i` that concerns the flow, as it is seen. -/
theorem sight_move (h : Machine.Run tr e.pre) {i : Side} {x : Input} {s : Core}
    (hs : step K (e.pre.node i) x = some (s, e.out))
    {rest : List Packet} (hpost : e.post = ⟨Function.update e.pre.node i s,
      e.pre.sends (link K) i rest e.out⟩) (speaks prints : List Byte)
    (hsaid : ∀ j, said (tr ++ [e]) j = said tr j ++ if i = j then speaks else [])
    (hheard : ∀ j, heard (tr ++ [e]) j = heard tr j ++ if i = j then prints else []) :
    sight φ (tr ++ [e]) e.post = (sight φ tr e.pre).move i
      ((e.post.node i).conn (φ.key (nics e.pre) i)) rest e.out.frames speaks prints := by
  have hnode : e.post.node = Function.update e.pre.node i s := congrArg Duplex.Net.node hpost
  obtain ⟨-, hother, hnic⟩ := event_node h hs hnode
  refine Sight.ext hnic (funext fun j => ?_) ?_ (funext fun j => ?_) (funext fun j => ?_)
  · show (e.post.node j).conn (φ.key (nics e.post) j) = _
    rw [hnic]
    rcases i.eq_or_other j with rfl | rfl
    · rw [Sight.move_conn]
    · rw [Sight.move_conn_other, hother]
      rfl
  · exact congrArg Duplex.Net.toward hpost
  · show said (tr ++ [e]) j = _
    rw [hsaid]
    rcases i.eq_or_other j with rfl | rfl
    · rw [Sight.move_said, if_pos rfl]
      rfl
    · rw [Sight.move_said_other, if_neg i.ne_other, List.append_nil]
      rfl
  · show heard (tr ++ [e]) j = _
    rw [hheard]
    rcases i.eq_or_other j with rfl | rfl
    · rw [Sight.move_heard, if_pos rfl]
      rfl
    · rw [Sight.move_heard_other, if_neg i.ne_other, List.append_nil]
      rfl

theorem sight_aside (h : Machine.Run tr e.pre) {i : Side} {x : Input}
    (hin : e.input = .aside i x) (hk : keyOf (nics e.pre i) x ≠ φ.key (nics e.pre) i) :
    sight φ (tr ++ [e]) e.post = sight φ tr e.pre := by
  obtain ⟨i', x', toward, s, htakes, hs, hpost⟩ := Duplex.event_takes e
  rw [hin] at htakes
  cases htakes
  obtain ⟨hself, hother, hnic⟩ := event_node h hs (congrArg Duplex.Net.node hpost)
  obtain ⟨tr', hr⟩ := node_run h i
  obtain ⟨o, ht, -⟩ := step_slot (run_rep hr) hs
  have hwire : e.post.toward = e.pre.toward := by rw [hpost]
  refine Sight.ext hnic (funext fun j => ?_) hwire (funext fun j => ?_) (funext fun j => ?_)
  · show (e.post.node j).conn (φ.key (nics e.post) j) = (e.pre.node j).conn (φ.key (nics e.pre) j)
    rw [hnic]
    rcases i.eq_or_other j with rfl | rfl
    · rw [hself]
      exact ht.others _ hk.symm
    · rw [hother]
  · show said (tr ++ [e]) j = said tr j
    rw [said_snoc, hin]
    exact List.append_nil _
  · show heard (tr ++ [e]) j = heard tr j
    rw [heard_snoc, hin]
    exact List.append_nil _

theorem taker_of (h : Machine.Run tr n) (hj : Joined (nics n)) {i : Side} {env : Env}
    (hs : Serves φ n i env) : Taker φ (sight φ tr n) i env (n.node i) := by
  obtain ⟨tr', hr⟩ := node_run h i
  exact {
    joined := hj
    here := rfl
    rep := run_rep hr
    conn := rfl
    routed := fun c hc => run_conn slot_routed hr _ c hc
    quiet := fun c hc => run_quiet hr _ c hc
    buffer := hs.buffer
    gaps := hs.gaps
    room := hs.room }

/-- Where the conversation stands after the events of `tr`. -/
def Stands (tr : List (cable K).Event) (n : Duplex.Net Core Packet) (st : Phase) : Prop :=
  (sight φ tr n).Shows φ st ∧ (st = .idle ↔ commands tr = []) ∧ st.closer = closer tr ∧
    tr.countP isDelivery + st.left ≤ 3 * (commands tr).length ∧ Spends tr st.left

variable {φ}

theorem event_stands (h : Machine.Run tr e.pre) (hj : Joined (nics e.pre)) {st : Phase}
    (hst : Stands φ tr e.pre st) (hp : Polite φ tr e) : ∃ st', Stands φ (tr ++ [e]) e.post st' := by
  obtain ⟨hshows, hidle, hclose, hcount, hspends⟩ := hst
  obtain ⟨i, x, toward, s, htakes, hs, hpost⟩ := Duplex.event_takes e
  unfold Polite at hp
  generalize hin : e.input = input at htakes hp
  cases htakes with
  | @deliver _ env p rest hto =>
    have hs : step K (e.pre.node i) ⟨.rx p, env⟩ = some (s, e.out) := hs
    have hself := (event_node h hs (congrArg Duplex.Net.node hpost)).1
    have hsight := sight_move φ h hs hpost [] e.out.printed
      (fun j => by rw [said_snoc, hin]; simp [commandOf])
      (fun j => by rw [heard_snoc, hin]; rfl)
    rw [hself] at hsight
    obtain ⟨st', hshows', hleft, hne, hcl⟩ := deliver_phase hto (taker_of φ h hj hp) hs hshows
    have hcmds : commands (tr ++ [e]) = commands tr := by
      rw [commands_snoc, hin]
      exact List.append_nil _
    refine ⟨st', ?_, ?_, ?_, ?_, .snoc ?_ fun _ => ⟨hspends, ?_⟩⟩
    · rw [hsight]
      exact hshows'
    · rw [hcmds, ← hidle]
      refine iff_of_false hne fun hst => ?_
      rw [hst] at hleft
      cases hleft
    · rw [hcl, hclose, closer, closer, hcmds]
    · rw [hcmds, List.countP_append, List.countP_singleton, isDelivery, hin]
      simp only [ite_true]
      omega
    · have := hspends.left_le
      omega
    · rw [isDelivery, hin]
      simp only [ite_true]
      omega
  | act =>
    obtain ⟨hserves, hk, hstill, hop⟩ := hp
    have hself := (event_node h hs (congrArg Duplex.Net.node hpost)).1
    have hsight := sight_move φ h hs hpost x.op.token []
      (fun j => by rw [said_snoc, hin]; simp [commandOf, saidBy])
      (fun j => by rw [heard_snoc, hin]; simp [printedAt])
    rw [hself, hstill] at hsight
    obtain ⟨st', hshows', hleft, hne, hno, hcl⟩ :=
      act_phase (taker_of φ h hj hserves) hs hk hstill hidle hclose hop hshows
    have hcmds : commands (tr ++ [e]) = commands tr ++ [(i, x.op)] := by
      rw [commands_snoc, hin]
      rfl
    refine ⟨st', ?_, ?_, ?_, ?_, .snoc (l := 0) hleft fun hno => ?_⟩
    · rw [hsight]
      exact hshows'
    · rw [hcmds]
      exact iff_of_false hne (by simp)
    · rw [hcl, closer_snoc, ← hclose, hno, hin]
      simp [commandOf]
    · rw [hcmds, List.countP_append, List.countP_singleton, isDelivery, hin, List.length_append]
      simp only [Bool.false_eq_true, ite_false, List.length_singleton]
      omega
    · rw [hin] at hno
      cases hno
  | aside =>
    have hcmds : commands (tr ++ [e]) = commands tr := by
      rw [commands_snoc, hin]
      exact List.append_nil _
    refine ⟨st, ?_, ?_, ?_, ?_, .snoc hspends.left_le fun _ => ⟨hspends, ?_⟩⟩
    · rw [sight_aside φ h hin hp]
      exact hshows
    · rw [hcmds]
      exact hidle
    · rw [hclose, closer, closer, hcmds]
    · rw [hcmds, List.countP_append, List.countP_singleton, isDelivery, hin]
      simpa using hcount
    · rw [isDelivery, hin]
      simp

theorem run_stands (h : Machine.Run tr n) :
    Joined (nics n) → Machine.Meets (Polite φ) tr → ∃ st, Stands φ tr n st := by
  refine Machine.Run.induct (P := fun tr n => Joined (nics n) → Machine.Meets (Polite φ) tr →
    ∃ st, Stands φ tr n st) ?_ ?_ h
  · intro n h0 _ _
    refine ⟨.idle, ⟨fun i => ?_, h0.2, fun i => ⟨rfl, rfl⟩⟩, iff_of_true rfl rfl, rfl, Nat.zero_le _,
      fun tr₁ tr₂ htr _ => ?_⟩
    · obtain ⟨nic, last, he⟩ := h0.1 i
      show (n.node i).conn _ = none
      rw [he]
      rfl
    · obtain ⟨-, rfl⟩ := List.append_eq_nil_iff.mp htr.symm
      exact Nat.zero_le _
  · intro tr e hr ih hj hp
    rw [Machine.meets_snoc] at hp
    obtain ⟨i, x, toward, s, -, hs, hpost⟩ := Duplex.event_takes e
    rw [(event_node hr hs (congrArg Duplex.Net.node hpost)).2.2] at hj
    obtain ⟨st, hst⟩ := ih hj hp.1
    exact event_stands hr hj hst hp.2

/-! ### The bytes that can be sent before a FIN -/

/-- `snd.una` of the end that opened stands two further than that of the other end. -/
def slack : Side → Nat
  | .left => 0
  | .right => 2

theorem seqno_slack (i : Side) (l : List Byte) :
    seqno l + 1 = firstAck i + BitVec.ofNat 32 (l.length + slack i) := by
  unfold seqno
  rw [BitVec.ofNat_add]
  generalize BitVec.ofNat 32 l.length = x
  cases i with
  | left =>
    show iss + 1 + x + 1 = iss + 2 + (x + 0)
    ring
  | right =>
    show iss + 1 + x + 1 = iss + (x + 2)
    ring

theorem reaches_iff (i : Side) (l : List Byte) :
    Reaches i l ↔ (l.length + slack i) % 2 ^ 32 + 1 < 2 ^ 31 := by
  unfold Reaches Circle.fwd
  rw [seqno_slack i, add_sub_cancel_left, BitVec.toNat_ofNat]

/-! ### The session -/

/-- What holds at any moment of a conversation with the commands `cmds`. -/
structure Sight.Sessions (v : Sight) (cmds : List (Side × Op)) : Prop where
  prints : ∀ i, v.heard i <+: v.said i.other
  all : v.Still → ∀ i, v.heard i = v.said i.other
  unopened : v.Still → cmds = [] → ∀ i, v.conn i = none
  opened : v.Still → cmds ≠ [] → cmds.findSome? closedBy = none → ∀ i,
    v.End i .established (firstAck i) (seqno (v.said i)) (seqno (v.said i.other))
  closed : v.Still → ∀ i, cmds.findSome? closedBy = some i →
    if ((v.said i).length + slack i) % 2 ^ 32 + 1 < 2 ^ 31 then ∀ j, v.conn j = none
    else (∃ c, v.conn i = some c ∧ c.tcpState = .finWait1) ∧
      ∃ c, v.conn i.other = some c ∧ c.tcpState = .lastAck

theorem shows_sessions {v : Sight} {st : Phase} {cmds : List (Side × Op)} (hshows : v.Shows φ st)
    (hidle : st = .idle ↔ cmds = []) (hclose : st.closer = cmds.findSome? closedBy) :
    v.Sessions cmds := by
  have inFlight : ∀ {j flags seq ackn data}, v.Still → v.Flight φ j flags seq ackn data → False := by
    rintro j flags seq ackn data hstill ⟨p, s, hto, -⟩
    cases hto.symm.trans (hstill j)
  have prefix_of_even : v.Even → ∀ i, v.heard i <+: v.said i.other := fun he i => by rw [he i]
  -- in a phase with something under way only the first part says anything
  have busy : ¬v.Still → (∀ i, v.heard i <+: v.said i.other) → v.Sessions cmds := fun hno hprints =>
    ⟨hprints, fun h => absurd h hno, fun h => absurd h hno, fun h => absurd h hno,
      fun h => absurd h hno⟩
  have silent : v.Silent → ∀ i, v.heard i <+: v.said i.other := fun hsil i => by
    rw [(hsil i).2]
    exact List.nil_prefix
  cases st with
  | idle =>
    obtain ⟨hnone, -, hsil⟩ := hshows
    have hcmds := hidle.mp rfl
    refine ⟨silent hsil, fun _ i => ?_, fun _ _ => hnone, fun _ hne => absurd hcmds hne,
      fun _ i hi => ?_⟩
    · exact (hsil i).2.trans (hsil i.other).1.symm
    · cases hclose.trans hi
  | synOut =>
    obtain ⟨-, -, ⟨p, s, hto, -⟩, hsil⟩ := hshows
    exact busy (fun hstill => by cases hto.symm.trans (hstill _)) (silent hsil)
  | synAcked => exact busy (inFlight · hshows.2.2.1) (silent hshows.2.2.2)
  | ackOut => exact busy (inFlight · hshows.2.2.1) (silent hshows.2.2.2)
  | settled =>
    obtain ⟨hready, -, hev⟩ := hshows
    refine ⟨prefix_of_even hev, fun _ => hev, fun _ hno => absurd (hidle.mpr hno) (by simp),
      fun _ _ _ i => ?_, fun _ i hi => ?_⟩
    · rw [← hev i]
      exact hready i
    · cases hclose.trans hi
  | dataOut j data =>
    obtain ⟨-, -, hev, hsaid, -, -, hf⟩ := hshows
    refine busy (inFlight · hf) ((Side.forall_iff j).mpr ⟨⟨data, hsaid.symm⟩, ?_⟩)
    rw [Side.other_other, hev]
  | dataAcked j => exact busy (inFlight · hshows.2.2.2) (prefix_of_even hshows.2.2.1)
  | finOut j => exact busy (inFlight · hshows.2.2.2) (prefix_of_even hshows.2.2.1)
  | finAnswered j => exact busy (inFlight · hshows.2.2.2) (prefix_of_even hshows.2.2.1)
  | lastOut j =>
    obtain ⟨-, -, hev, ⟨_, _, hf⟩, -⟩ := hshows
    exact busy (inFlight · hf) (prefix_of_even hev)
  | done j =>
    obtain ⟨hnone, -, hev, hreach⟩ := hshows
    refine ⟨prefix_of_even hev, fun _ => hev, fun _ hno => absurd (hidle.mpr hno) (by simp),
      fun _ _ hno => ?_, fun _ i hi => ?_⟩
    · cases hclose.trans hno
    · obtain rfl := Option.some.inj (hclose.trans hi)
      rw [if_pos ((reaches_iff ..).mp hreach)]
      exact hnone
  | refused j =>
    obtain ⟨⟨_, _, _, c, hc, hst⟩, ⟨_, _, _, d, hd, hst'⟩, -, hev, hreach⟩ := hshows
    refine ⟨prefix_of_even hev, fun _ => hev, fun _ hno => absurd (hidle.mpr hno) (by simp),
      fun _ _ hno => ?_, fun _ i hi => ?_⟩
    · cases hclose.trans hno
    · obtain rfl := Option.some.inj (hclose.trans hi)
      rw [if_neg fun hlt => hreach ((reaches_iff ..).mpr hlt)]
      exact ⟨⟨c, hc, hst.state⟩, d, hd, hst'.state⟩

/-- Each end prints a prefix of what the user of the other one sent, and all of it when
nothing is under way. Then a flow that is open is open on both sides with the same
numbers, and a flow one of them closed is gone on both, exactly as long as the closing
side has sent less than half the circle; otherwise the two wait for ever. -/
theorem session (h : Machine.Run tr n) (hj : Joined (nics n)) (hp : Machine.Meets (Polite φ) tr) :
    (∀ i, heard tr i <+: said tr i.other) ∧
    ((∀ i, n.toward i = []) →
      (∀ i, heard tr i = said tr i.other) ∧
      (commands tr = [] → ∀ i, (n.node i).conn (φ.key (nics n) i) = none) ∧
      (commands tr ≠ [] → closer tr = none → ∀ i, ∃ c,
        (n.node i).conn (φ.key (nics n) i) = some c ∧
        c.Stands .established (firstAck i) (seqno (said tr i)) (seqno (said tr i.other))) ∧
      ∀ i, closer tr = some i →
        if ((said tr i).length + slack i) % 2 ^ 32 + 1 < 2 ^ 31 then
          ∀ j, (n.node j).conn (φ.key (nics n) j) = none
        else
          (n.node i).stateOf (φ.key (nics n) i) = some .finWait1 ∧
            (n.node i.other).stateOf (φ.key (nics n) i.other) = some .lastAck) := by
  obtain ⟨st, hshows, hidle, hclose, -⟩ := run_stands h hj hp
  have hs := shows_sessions hshows hidle hclose
  refine ⟨hs.prints, fun hstill => ⟨hs.all hstill, hs.unopened hstill, hs.opened hstill,
    fun i hi => ?_⟩⟩
  rw [stateOf_eq, stateOf_eq]
  exact hs.closed hstill i hi

/-- What is under way in any phase can be delivered: it has a size that can be sent. -/
theorem flight_sound {st : Phase} {v : Sight} (h : v.Shows φ st) {i : Side} {p : Packet}
    {rest : List Packet} (ht : v.toward i = p :: rest) :
    rest = [] ∧ v.toward i.other = [] ∧ 0 < st.left ∧
      ∃ s, rxSegment (v.nic i) (φ.pad i) p = some s ∧ 0 ≤ s.size.toInt := by
  have sound : ∀ {l j flags seq ackn data}, v.Flight φ j flags seq ackn data →
      data.length ≤ 65495 → 0 < l → rest = [] ∧ v.toward i.other = [] ∧ 0 < l ∧
        ∃ s, rxSegment (v.nic i) (φ.pad i) p = some s ∧ 0 ≤ s.size.toInt := by
    intro l j flags seq ackn data hf hlen hl
    obtain ⟨rfl, hrest, hto, s, hs⟩ := hf.side ht
    refine ⟨hrest, hto, hl, s, ?_, ?_⟩
    · rw [← key_pad φ v.nic]
      exact hs.passes
    · rw [hs.size, BitVec.toInt_eq_toNat_cond, BitVec.toNat_ofNat]
      omega
  have busy : ¬v.Still := by
    intro hstill
    cases ht.symm.trans (hstill i)
  have empty : ([] : List Byte).length ≤ 65495 := Nat.zero_le _
  cases st with
  | idle => exact absurd h.2.1 busy
  | settled => exact absurd h.2.1 busy
  | done j => exact absurd h.2.1 busy
  | refused j => exact absurd h.2.2.1 busy
  | synOut =>
    obtain ⟨-, -, ⟨p', s, hp, hn, hs, -⟩, -⟩ := h
    exact sound (j := .right) ⟨p', s, hp, hn, hs⟩ empty (Nat.succ_pos _)
  | synAcked => exact sound h.2.2.1 empty (Nat.succ_pos _)
  | ackOut => exact sound h.2.2.1 empty (Nat.succ_pos _)
  | dataOut j data => exact sound h.2.2.2.2.2.2 h.2.2.2.2.2.1 (Nat.succ_pos _)
  | dataAcked j => exact sound h.2.2.2 empty (Nat.succ_pos _)
  | finOut j => exact sound h.2.2.2 empty (Nat.succ_pos _)
  | finAnswered j => exact sound h.2.2.2 empty (Nat.succ_pos _)
  | lastOut j =>
    obtain ⟨-, -, -, ⟨seq, ackn, hf⟩, -⟩ := h
    exact sound hf empty (Nat.succ_pos _)

/-- The session never gets stuck: what is under way is one segment and can be
delivered, a user whose turn it is can go on, and at any moment there have been three
deliveries at most since the last command. -/
theorem session_goes_on (h : Machine.Run tr n) (hj : Joined (nics n))
    (hp : Machine.Meets (Polite φ) tr) :
    (∀ i, n.toward i ≠ [] → (n.toward i).length = 1 ∧ n.toward i.other = [] ∧
      tr.countP isDelivery < 3 * (commands tr).length ∧
      ∀ env, Serves φ n i env → (cable K).step n (.deliver i env) ≠ none) ∧
    (∀ i x, Serves φ n i x.env → Proper (commands tr) i x.op →
      (cable K).step n (.act i x) ≠ none) ∧
    (∀ tr₁ tr₂, tr = tr₁ ++ tr₂ → commands tr₂ = [] → tr₂.countP isDelivery ≤ 3) ∧
    tr.countP isDelivery ≤ 3 * (commands tr).length := by
  obtain ⟨st, hshows, -, -, hcount, hspends⟩ := run_stands h hj hp
  have survive : ∀ {i x}, Sound (nics n i) x → step K (n.node i) x ≠ none := fun {i x} hx => by
    obtain ⟨tr', hr⟩ := node_run h i
    rw [Ne, step_none_iff (run_rep hr)]
    exact not_crashes hx
  refine ⟨fun i hne => ?_, fun i x hs hop => ?_, fun tr₁ tr₂ htr hno =>
    Nat.le_trans (Nat.le_add_right ..) (hspends tr₁ tr₂ htr hno), by omega⟩
  · obtain ⟨p, rest, hto⟩ := List.exists_cons_of_ne_nil hne
    obtain ⟨rfl, hother, hleft, s, hpass, hpos⟩ := flight_sound hshows hto
    refine ⟨by rw [hto]; rfl, hother, by omega, fun env hs => ?_⟩
    have hstep : step K (n.node i) ⟨.rx p, env⟩ ≠ none :=
      survive ⟨hs.object, fun s' hs' => ?_, Nat.two_pow_pos _⟩
    · exact Duplex.deliver_ne_none hto hstep
    have hs' : rxSegment (nics n i) env.pad p = some s' := hs'
    rw [hs.gaps] at hs'
    cases hs'.symm.trans hpass
    exact hpos
  · have hsound : Sound (nics n i) x := by
      refine ⟨hs.object, fun s hs' => ?_, ?_⟩
      · cases hx : x.op with
        | rx p => rw [hx] at hop; exact absurd hop id
        | connect dip dport sport => rw [hx] at hs'; cases hs'
        | close q => rw [hx] at hs'; cases hs'
        | send q data => rw [hx] at hs'; cases hs'
      · cases hx : x.op with
        | send q data =>
          rw [hx] at hop
          exact hop.2.2.2.trans_lt (by decide)
        | rx p => exact Nat.two_pow_pos _
        | connect dip dport sport => exact Nat.two_pow_pos _
        | close q => exact Nat.two_pow_pos _
    show (n.take (M := machine K) i x _) ≠ none
    unfold Duplex.Net.take
    rw [Ne, Option.map_eq_none_iff]
    exact survive hsound

end

/-! ## On two hosts -/

instance (nic : Side → Nic) : Decidable (Joined nic) := inferInstanceAs (Decidable (∀ _, _))

instance (φ : Flow) (n : Duplex.Net Core Packet) (i : Side) (env : Env) :
    Decidable (Serves φ n i env) :=
  decidable_of_iff (env.mbuf = true ∧ env.object.isSome = true ∧ env.pad = φ.pad i ∧
      (n.node i).tcp.rteHash.Room (φ.key (nics n) i))
    ⟨fun h => ⟨h.1, Option.isSome_iff_ne_none.mp h.2.1, h.2.2.1, h.2.2.2⟩,
      fun h => ⟨h.buffer, Option.isSome_iff_ne_none.mpr h.object, h.gaps, h.room⟩⟩

instance (cmds : List (Side × Op)) (i : Side) : ∀ op, Decidable (Proper cmds i op)
  | .rx _ => isFalse id
  | .connect _ _ _ => inferInstanceAs (Decidable (_ ∧ cmds = []))
  | .send _ _ => inferInstanceAs (Decidable (cmds ≠ [] ∧ _))
  | .close _ => inferInstanceAs (Decidable (cmds ≠ [] ∧ _))

instance (φ : Flow) (cmds : List (Side × Op)) (n : Duplex.Net Core Packet) :
    ∀ x, Decidable (Allowed φ cmds n x)
  | .deliver _ _ => inferInstanceAs (Decidable (Serves ..))
  | .act _ _ => inferInstanceAs (Decidable (_ ∧ _))
  | .aside _ _ => inferInstanceAs (Decidable (_ ≠ _))

instance (φ : Flow) {K : RteCksum} (tr : List (cable K).Event) (e : (cable K).Event) :
    Decidable (Polite φ tr e) := inferInstanceAs (Decidable (Allowed ..))

def hostAndPeer : Duplex.Net Core Packet where
  node
    | .left => host
    | .right => initializeTcp peerNic 0
  toward _ := []

theorem hostAndPeer_init (K : RteCksum) : (cable K).init hostAndPeer := by
  refine ⟨fun i => ?_, fun _ => rfl⟩
  cases i with
  | left => exact host_init K
  | right => exact ⟨peerNic, 0, rfl⟩

def someFlow : Flow := ⟨peerPort, hostPort, fun _ => 0⟩

/-- The left host says two bytes, the right one answers with one and closes. -/
def hello : List (Duplex.Input Input Env) :=
  let left := someFlow.key (nics hostAndPeer) .left
  let right := someFlow.key (nics hostAndPeer) .right
  [.act .left userConnect, .deliver .right calm, .deliver .left calm, .deliver .right calm,
    .act .left ⟨.send left [0x68, 0x69], calm⟩, .deliver .right calm, .deliver .left calm,
    .act .right ⟨.send right [0x6f], calm⟩, .deliver .left calm, .deliver .right calm,
    .act .right ⟨.close right, calm⟩, .deliver .left calm, .deliver .right calm,
    .deliver .left calm]

theorem hello_run : ∃ (tr : List (cable rfcCksum).Event) (n : Duplex.Net Core Packet),
    Machine.Run tr n ∧ Joined (nics n) ∧ Machine.Meets (Polite someFlow) tr ∧
      (∀ i, n.toward i = []) ∧ (commands tr).length = 4 ∧ closer tr = some .right ∧
      said tr .left = [0x68, 0x69] ∧ said tr .right = [0x6f] ∧ tr.countP isDelivery = 10 := by
  obtain ⟨tr, n, hr, hQ⟩ := Machine.exists_run (hostAndPeer_init rfcCksum) hello
    (Q := fun r => Joined (nics r.2) ∧
      (∀ m, (hm : m < r.1.length) → Polite someFlow (r.1.take m) (r.1.get ⟨m, hm⟩)) ∧
      (∀ i, r.2.toward i = []) ∧ (commands r.1).length = 4 ∧
      closer r.1 = some .right ∧ said r.1 .left = [0x68, 0x69] ∧ said r.1 .right = [0x6f] ∧
      r.1.countP isDelivery = 10) (by decide +kernel)
  obtain ⟨hj, hp, hstill, hrest⟩ := of_decide_eq_true hQ
  exact ⟨tr, n, hr, hj, Machine.meets_iff_take.mpr hp, hstill, hrest⟩

theorem session_hello : ∃ (tr : List (cable rfcCksum).Event) (n : Duplex.Net Core Packet),
    Machine.Run tr n ∧ heard tr .right = [0x68, 0x69] ∧ heard tr .left = [0x6f] ∧
      ∀ j, (n.node j).conn (someFlow.key (nics n) j) = none := by
  obtain ⟨tr, n, hr, hj, hp, hstill, -, hclose, hl, hright, -⟩ := hello_run
  obtain ⟨heq, -, -, hgone⟩ := (session hr hj hp).2 hstill
  have hgone := hgone .right hclose
  rw [hright, if_pos (by decide)] at hgone
  exact ⟨tr, n, hr, (heq .right).trans hl, (heq .left).trans hright, hgone⟩

theorem session_goes_on_hello : ∃ (tr : List (cable rfcCksum).Event) (n : Duplex.Net Core Packet),
    Machine.Run tr n ∧ tr.countP isDelivery = 10 ∧
      tr.countP isDelivery ≤ 3 * (commands tr).length := by
  obtain ⟨tr, n, hr, hj, hp, -, -, -, -, -, hcount⟩ := hello_run
  exact ⟨tr, n, hr, hcount, (session_goes_on hr hj hp).2.2.2⟩

end TcpDpdk
