import TcpDpdk.Buffers
import TcpDpdk.Config
import TcpDpdk.Program

/-!
# From the file to the frames

`config_init` calls `initialize_tcp` for each worker with the strings `parse_args` has left in
`struct config`: of each key the last value. `startup` follows them to what the program, whatever
it then does, puts on the wire and to what it answers.
-/

namespace TcpDpdk

/-! ## The last value of a key -/

def Key.valueIn (k : Key) (x : Key × Option Arg) : Option Arg := if x.1 = k then x.2 else none

def lastValue (k : Key) (l : List (Key × Option Arg)) : Option Arg := (l.filterMap k.valueIn).getLast?

theorem lastValue_cons (k : Key) (x : Key × Option Arg) (l : List (Key × Option Arg)) :
    lastValue k (x :: l) = (lastValue k l).or (k.valueIn x) := by
  unfold lastValue
  cases hx : k.valueIn x with
  | none => rw [List.filterMap_cons_none hx, Option.or_none]
  | some v =>
    rw [List.filterMap_cons_some hx, List.getLast?_cons]
    generalize (l.filterMap k.valueIn).getLast? = o
    cases o <;> rfl

theorem parseLoop_get {rest : List Arg} (argv₀ : Arg) (argc i : Nat) (c : Config)
    (hvalues : ∀ x ∈ settings rest, ∃ v, x.2 = some v) :
    ∃ c', (parseLoop argv₀ argc i c rest).value = some c' ∧
      ∀ k, c'.get k = (lastValue k (settings rest)).or (c.get k) := by
  induction rest using settings.induct generalizing i c with
  | case1 => exact ⟨c, rfl, fun k => rfl⟩
  | case2 rest =>
    refine ⟨c, by rw [parseLoop, if_pos rfl]; rfl, fun k => ?_⟩
    rw [settings, if_pos rfl]
    rfl
  | case3 a ha k hk =>
    rw [settings, if_neg ha, hk] at hvalues
    obtain ⟨v, hv⟩ := hvalues (k, none) (List.mem_cons_self ..)
    cases hv
  | case4 a ha k hk v rest ih =>
    rw [settings, if_neg ha, hk] at hvalues ⊢
    obtain ⟨c', hc', hget⟩ := ih (i + 2) (c.set v k) (List.forall_mem_cons.mp hvalues).2
    refine ⟨c', by rw [parseLoop_key ha hk]; exact hc', fun j => ?_⟩
    rw [hget, lastValue_cons, Config.get_set, Option.or_assoc, Key.valueIn]
    by_cases hj : j = k
    · simp [hj]
    · simp [hj, Ne.symm hj]
  | case5 a rest ha hk ih =>
    rw [settings, if_neg ha, hk] at hvalues ⊢
    obtain ⟨c', hc', hget⟩ := ih (i + 1) c hvalues
    exact ⟨c', by rw [parseLoop_skip ha hk]; exact hc', hget⟩

theorem parseArgs_get {l : List Arg} (hvalues : ∀ x ∈ settings l.tail, ∃ v, x.2 = some v) :
    ∃ c, (parseArgs .malloc l).value = some c ∧ ∀ k, c.get k = lastValue k (settings l.tail) := by
  have hmalloc : ∀ k, Config.malloc.get k = none := fun k => by cases k <;> rfl
  cases l with
  | nil => exact ⟨.malloc, rfl, hmalloc⟩
  | cons argv₀ rest =>
    obtain ⟨c, hc, hget⟩ := parseLoop_get argv₀ (rest.length + 1) 1 .malloc hvalues
    refine ⟨c, hc, fun k => ?_⟩
    rw [hget, hmalloc, Option.or_none, List.tail_cons]

/-! ## The cores -/

/-- `rte_ether_unformat_addr`: what is in the address afterwards. It may depend on what was there
before, for what is no address. -/
abbrev Unformat := Arg → BitVec 48 → BitVec 48

/-- `initialize_tcp`, the addresses; `none` where `string_to_ip` leaves the program. A field that was
not copied holds what it held before, and so does `eth`. -/
def startNic (U : Unformat) (unset : Key → Arg) (eth : BitVec 48) (c : Config) : Option Nic :=
  let field k := (c.get k).getD (unset k)
  (stringToIp (field .srcIp)).map fun ip =>
    let mac := U (field .srcMac) eth
    ⟨rteCpuToBe32 ip, mac, U (field .dstMac) mac⟩

section
variable {n : Nat}

/-- The program when `main` and the workers enter their loops. -/
structure Starts (U : Unformat) (calls : List Config) (s : Program n) : Prop where
  length : calls.length = n + 1
  cores : ∀ (j : Fin (n + 1)) c, calls[j.val]? = some c →
    ∃ unset eth last nic, startNic U unset eth c = some nic ∧ s.cores j = initializeTcp nic last
  panel : s.panel = .start
  cpQuit : s.cpQuit = false
  dpQuit : ∀ j, s.dpQuit j = false
  main : s.main = .testing
  workers : ∀ j, s.workers j = .testing
  handlers : s.handlers = []

structure Nic.Configured (U : Unformat) (addr : BitVec 32) (mac dst : Arg) (nic : Nic) : Prop where
  ip : nic.ip = rteCpuToBe32 addr
  mac : ∃ eth, nic.mac = U mac eth
  dst : nic.dstMac = U dst nic.mac

structure Frame.From (nic : Nic) (f : Frame) : Prop where
  ip : f.ipv4.srcAddr = nic.ip
  mac : f.ether.sAddr = nic.mac
  dst : f.ether.dAddr = nic.dstMac

/-- What of an input has an effect is a frame for the host or a command. -/
def Op.Addressed (nic : Nic) : Op → Prop
  | .rx p => p.ipv4.dstAddr = nic.ip ∧ p.ether.dAddr = nic.mac
  | _ => True

section
variable {K : RteCksum} {env : Env} {t : Tcp}

theorem slot_from {i : Input} {o o' : Option Connection} {out : Out}
    (h : Slot K i.env t i.op o o' out) (hq : ∀ c, o = some c → c.q = keyOf t.nic i)
    (hP : ∀ c, o = some c → c.Routed) (hhere : ∀ c, o = some c → (keyOf t.nic i).dip = t.nic.ip) :
    ∀ f ∈ out.frames, f.From t.nic := by
  intro f hf
  have hroute := slot_route h hq hP f hf
  have hdip : (keyOf t.nic i).dip = t.nic.ip := by
    cases o with
    | some c => exact hhere c rfl
    | none => exact slot_here h (Or.inr (List.ne_nil_of_mem hf))
  rcases slot_sendP h with hnil | ⟨c, data, m, hp⟩
  · rw [hnil] at hf
    cases hf
  · rcases sendP_some hp with ⟨hnil, -⟩ | ⟨hone, -, -⟩
    · rw [hnil] at hf
      cases hf
    · rw [hone, List.mem_singleton] at hf
      subst hf
      exact ⟨(congrArg Route.srcAddr hroute).trans hdip, rfl, rfl⟩

theorem step_unaddressed {k k' : Core} {i : Input} {out : Out}
    (hno : ¬i.op.Addressed k.tcp.nic) (h : step K k i = some (k', out)) : k' = k ∧ out = {} := by
  obtain ⟨op, env⟩ := i
  cases op with
  | rx p =>
    have hs : rxSegment k.tcp.nic env.pad p = none := by
      unfold rxSegment
      by_cases hmac : p.ether.dAddr = k.tcp.nic.mac
      · have hip : k.tcp.nic.ip ≠ p.ipv4.dstAddr := fun hip => hno ⟨hip.symm, hmac⟩
        simp [hmac, hip]
      · simp [hmac]
    simp only [step, tcpRxPacket, hs] at h
    cases h
    exact ⟨rfl, rfl⟩
  | close q => exact absurd trivial hno
  | send q data => exact absurd trivial hno
  | connect dip dport sport => exact absurd trivial hno

theorem path_nic {nic : Nic} {last : BitVec 64} {xs : List (machine K).Event} {k : Core}
    (h : Machine.Path (initializeTcp nic last) xs k) : k.tcp.nic = nic := by
  have hrun : Machine.Run xs k := ⟨_, ⟨nic, last, rfl⟩, h⟩
  have hrep : ∀ x ∈ xs, x.pre.Rep := fun x hx =>
    let ⟨_, hr⟩ := hrun.reached hx
    run_rep hr
  exact Machine.path_keeps (P := fun k => k.tcp.nic = nic) (R := fun e => e.pre.Rep)
    (fun _ hrep hnic => (event_nic hrep).trans hnic) h hrep rfl

/-- A step of a core that was set up with `nic`. -/
theorem step_from {nic : Nic} {last : BitVec 64} {xs : List (machine K).Event} {k k' : Core}
    {i : Input} {out : Out} (h : Machine.Path (initializeTcp nic last) xs k)
    (hk : step K k i = some (k', out)) :
    (∀ f ∈ out.frames, f.From nic) ∧ (¬i.op.Addressed nic → k' = k ∧ out = {}) := by
  have hrun : Machine.Run xs k := ⟨_, ⟨nic, last, rfl⟩, h⟩
  have hrep := run_rep hrun
  have hslot := (event_slot (⟨k, i, k', out, hk⟩ : (machine K).Event) hrep).2
  have hfrom := slot_from hslot (fun c hc => hrep.key hc) (run_conn slot_routed hrun _)
    fun c hc => run_here hrun _ c hc
  rw [← path_nic h]
  exact ⟨hfrom, fun hno => step_unaddressed hno hk⟩

end

/-! ## From the file -/

section
variable {U : Unformat} {eal : Eal} {ports ret : Nat} {text : List Byte} {argv : List Arg}

/-- The calls of `initialize_tcp` for a good file. -/
theorem configInit_value {workers : Nat} (hgood : GoodConfig eal ports workers (fileArgs text))
    (hinit : eal.init (fileArgs text) = some (argv, ret)) (hports : 0 < ports) : ∃ c,
    (configInit eal ports workers (some text)).value = List.replicate workers c ∧
      ∀ k, c.get k = lastValue k (settings (argv.drop (ret + 1))) := by
  have hvalues := (hgood.settings argv ret hinit).values
  rw [← List.tail_drop] at hvalues ⊢
  obtain ⟨c, hc, hget⟩ := parseArgs_get (l := argv.drop ret) fun x hx =>
    (hvalues x hx).imp fun _ h => h.1
  refine ⟨c, ?_, hget⟩
  have hworkers : (initWorkers ports workers _).value = _ := initWorkers_value hc
  rw [if_neg (Nat.ne_of_gt hports)] at hworkers
  unfold configInit
  dsimp only
  rw [Logged.value_bind, Logged.value_bind, hinit]
  exact hworkers

theorem lastValue_some {k : Key} {l : List (Key × Option Arg)} (h : ∃ v, (k, some v) ∈ l) :
    ∃ v, lastValue k l = some v := by
  obtain ⟨v, hv⟩ := h
  have hmem : v ∈ l.filterMap k.valueIn :=
    List.mem_filterMap.mpr ⟨_, hv, by simp [Key.valueIn]⟩
  exact ⟨_, List.getLast?_eq_some_getLast (List.ne_nil_of_mem hmem)⟩

variable {K : RteCksum} {s₀ s : Program n} {tr : List (programMachine K n).Event}

/-- All workers are set up with one address and with what their own memory makes of the MACs. -/
theorem starts_cores {calls : List Config} {c : Config} {ip mac dst : Arg}
    (hcalls : calls = List.replicate (n + 1) c) (hs : Starts U calls s₀)
    (hip : c.get .srcIp = some ip) (hmac : c.get .srcMac = some mac) (hdst : c.get .dstMac = some dst) :
    ∃ addr, stringToIp ip = some addr ∧ ∃ eth last : Fin (n + 1) → _, ∀ j,
      s₀.cores j = initializeTcp ⟨rteCpuToBe32 addr, U mac (eth j), U dst (U mac (eth j))⟩ (last j) := by
  have hcore : ∀ j, ∃ eth last addr, stringToIp ip = some addr ∧
      s₀.cores j = initializeTcp ⟨rteCpuToBe32 addr, U mac eth, U dst (U mac eth)⟩ last := by
    intro j
    have hj : calls[j.val]? = some c := by
      rw [hcalls]
      exact List.getElem?_replicate_of_lt j.isLt
    obtain ⟨unset, eth, last, nic, hnic, hstart⟩ := hs.cores j c hj
    unfold startNic at hnic
    dsimp only at hnic
    rw [hip, hmac, hdst] at hnic
    obtain ⟨addr, haddr, rfl⟩ := Option.map_eq_some_iff.mp hnic
    exact ⟨eth, last, addr, haddr, hstart⟩
  obtain ⟨-, -, addr, haddr, -⟩ := hcore 0
  choose eth last addr' haddr' hcore using hcore
  refine ⟨addr, haddr, eth, last, fun j => ?_⟩
  cases haddr.symm.trans (haddr' j)
  exact hcore j

theorem path_from {nics : Fin (n + 1) → Nic} {last : Fin (n + 1) → BitVec 64}
    (hcore : ∀ j, s₀.cores j = initializeTcp (nics j) (last j)) (hp : Machine.Path s₀ tr s) :
    ∀ e ∈ tr, (e.out = {} ∧ e.post.cores = e.pre.cores) ∨
      ∃ j i, coreInput j e.pre e.input = some i ∧ i.op.Addressed (nics j) ∧
        (∀ f ∈ e.out.frames, f.From (nics j)) ∧ ∀ x, x ≠ j → e.post.cores x = e.pre.cores x := by
  intro e he
  obtain ⟨tr₁, tr₂, rfl⟩ := List.append_of_mem he
  obtain ⟨_, hpre, rfl, -⟩ := Machine.path_append.mp hp
  have hstepped := event_stepped e
  generalize e.post.cores = cores at hstepped ⊢
  generalize e.out = out at hstepped ⊢
  cases hstepped with
  | nowhere _ => exact Or.inl ⟨rfl, rfl⟩
  | @only j i k _ hi _ hk =>
    obtain ⟨xs, hx, -⟩ := path_core hpre j
    rw [hcore j] at hx
    obtain ⟨hfrom, hno⟩ := step_from hx hk
    by_cases haddr : i.op.Addressed (nics j)
    · exact Or.inr ⟨j, i, hi, haddr, hfrom, fun x hx => Function.update_of_ne hx ..⟩
    · obtain ⟨rfl, rfl⟩ := hno haddr
      exact Or.inl ⟨rfl, Function.update_eq_self ..⟩

/-- From a good file every worker gets the last address and the last two MACs there are, and
whatever the program then does, every frame it sends is from them, and no turn does anything to
the cores but a command or a packet that is for them, and to one of them only. -/
theorem startup (hgood : GoodConfig eal ports (n + 1) (fileArgs text)) (hports : 0 < ports)
    (hinit : eal.init (fileArgs text) = some (argv, ret))
    (hs : Starts U (configInit eal ports (n + 1) (some text)).value s₀)
    (hp : Machine.Path s₀ tr s) :
    ∃ ip mac dst addr, lastValue .srcIp (settings (argv.drop (ret + 1))) = some ip ∧
      lastValue .srcMac (settings (argv.drop (ret + 1))) = some mac ∧
      lastValue .dstMac (settings (argv.drop (ret + 1))) = some dst ∧ stringToIp ip = some addr ∧
      ((∀ eth eth', U mac eth = U mac eth') → (programMachine K n).init s₀) ∧
      ∃ nics : Fin (n + 1) → Nic, (∀ j, (nics j).Configured U addr mac dst) ∧
        ∀ e ∈ tr, (e.out = {} ∧ e.post.cores = e.pre.cores) ∨
          ∃ j i, coreInput j e.pre e.input = some i ∧ i.op.Addressed (nics j) ∧
            (∀ f ∈ e.out.frames, f.From (nics j)) ∧ ∀ x, x ≠ j → e.post.cores x = e.pre.cores x := by
  obtain ⟨c, hcalls, hget⟩ := configInit_value hgood hinit hports
  have hkeys := (hgood.settings argv ret hinit).keys ⟨hports, Nat.succ_pos n⟩
  obtain ⟨ip, hip⟩ := lastValue_some (hkeys .srcIp)
  obtain ⟨mac, hmac⟩ := lastValue_some (hkeys .srcMac)
  obtain ⟨dst, hdst⟩ := lastValue_some (hkeys .dstMac)
  obtain ⟨addr, haddr, eth, last, hcore⟩ := starts_cores hcalls hs ((hget _).trans hip)
    ((hget _).trans hmac) ((hget _).trans hdst)
  refine ⟨ip, mac, dst, addr, hip, hmac, hdst, haddr, fun hU => ?_,
    fun j => ⟨rteCpuToBe32 addr, U mac (eth j), U dst (U mac (eth j))⟩,
    fun j => ⟨rfl, ⟨eth j, rfl⟩, rfl⟩, path_from hcore hp⟩
  refine ⟨⟨⟨rteCpuToBe32 addr, U mac (eth 0), U dst (U mac (eth 0))⟩, fun j => ⟨last j, ?_⟩⟩,
    hs.panel, hs.cpQuit, hs.dpQuit, hs.main, hs.workers, hs.handlers⟩
  rw [hcore j, hU (eth j) (eth 0)]

end

end

/-! ## On the host -/

def runTxt : List Byte :=
  ascii "build/tcp\n--\nsrc_ip\n10.0.0.7\nsrc_mac\nA\ndst_mac\nB\nsrc_ip\n10.0.0.1\n"

def runArgv : List Arg :=
  ["build/tcp", "build/tcp", "src_ip", "10.0.0.7", "src_mac", "A", "dst_mac", "B", "src_ip",
    "10.0.0.1"].map ascii

def runSettings : List (Key × Option Arg) :=
  [(.srcIp, some (ascii "10.0.0.7")), (.srcMac, some (ascii "A")), (.dstMac, some (ascii "B")),
    (.srcIp, some (ascii "10.0.0.1"))]

theorem runTxt_init : Eal.upToDashes.init (fileArgs runTxt) = some (runArgv, 1) := by decide +kernel

theorem runTxt_good : GoodConfig .upToDashes 1 1 (fileArgs runTxt) := by
  refine ⟨by decide +kernel, by decide +kernel, fun argv ret h => ?_⟩
  cases runTxt_init.symm.trans h
  have hsettings : settings (runArgv.drop (1 + 1)) = runSettings := by decide +kernel
  rw [hsettings]
  refine ⟨fun x hx => ?_, fun _ k => ?_⟩
  · have hsome : ∀ x ∈ runSettings, (x.2.any fun v => v.length < fieldSize) = true := by decide
    obtain ⟨v, hv, hlen⟩ := (Option.any_eq_true ..).mp (hsome x hx)
    exact ⟨v, hv, of_decide_eq_true hlen⟩
  · cases k
    · exact ⟨ascii "10.0.0.1", by decide⟩
    · exact ⟨ascii "A", by decide⟩
    · exact ⟨ascii "B", by decide⟩

def hostUnformat : Unformat := fun a _ => if a = ascii "A" then 1 else 2

theorem programHost_starts :
    Starts hostUnformat (configInit .upToDashes 1 1 (some runTxt)).value programHost := by
  have hcalls : (configInit .upToDashes 1 1 (some runTxt)).value =
      [⟨some (ascii "10.0.0.1"), some (ascii "A"), some (ascii "B")⟩] := by decide +kernel
  refine ⟨by rw [hcalls]; rfl, fun j c hc => ?_, rfl, rfl, fun _ => rfl, rfl, fun _ => rfl, rfl⟩
  rw [hcalls] at hc
  obtain ⟨x, hx⟩ := j
  have h0 : x = 0 := by omega
  subst h0
  cases hc
  exact ⟨fun _ => [], 0, 0, hostNic, by decide +kernel, rfl⟩

theorem startup_connect : ∃ (tr : List (programMachine rfcCksum 0).Event) (s : Program 0),
    Machine.Path programHost tr s ∧ (tr.map fun e => e.out.frames.length).sum = 1 ∧
    ∃ ip mac dst addr, lastValue .srcIp (settings (runArgv.drop 2)) = some ip ∧
      lastValue .srcMac (settings (runArgv.drop 2)) = some mac ∧
      lastValue .dstMac (settings (runArgv.drop 2)) = some dst ∧ stringToIp ip = some addr ∧
      ((∀ eth eth', hostUnformat mac eth = hostUnformat mac eth') →
        (programMachine rfcCksum 0).init programHost) ∧
      ∃ nics : Fin 1 → Nic, (∀ j, (nics j).Configured hostUnformat addr mac dst) ∧
        ∀ e ∈ tr, (e.out = {} ∧ e.post.cores = e.pre.cores) ∨
          ∃ j i, coreInput j e.pre e.input = some i ∧ i.op.Addressed (nics j) ∧
            (∀ f ∈ e.out.frames, f.From (nics j)) ∧ ∀ x, x ≠ j → e.post.cores x = e.pre.cores x := by
  have hreplay : ((programMachine rfcCksum 0).replay programHost connectsAndReceives).any
      (fun r => (r.1.map fun e => e.out.frames.length).sum = 1) = true := by decide +kernel
  obtain ⟨⟨tr, s⟩, hr, hQ⟩ := (Option.any_eq_true ..).mp hreplay
  have hp := Machine.replay_path hr
  exact ⟨tr, s, hp, of_decide_eq_true hQ,
    startup runTxt_good Nat.one_pos runTxt_init programHost_starts hp⟩

end TcpDpdk
