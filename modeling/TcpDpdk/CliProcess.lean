import TcpDpdk.Checksum
import TcpDpdk.Cli
import TcpDpdk.ControlPanel

/-!
# Commands from the line to the connection

What `cli_process` does to the cores with the line it is given. `refused_iff` says which
malformed operands it refuses, `typedBack` that printed ones find their connection, and
`payloadInside_iff` which lines write behind the data a connection has room for.
-/

namespace TcpDpdk

/-! ## Carrying out a command -/

inductive Stop where
  | exit
  | crash
  deriving DecidableEq

structure CliDone (n : Nat) where
  cores : TcpList n
  frames : List Frame
  /-- the core and the connection that `flow`, `close` or `send` was applied to -/
  acted : Option (Fin (n + 1) × Nat)

section
variable {n : Nat}

/-- The loops over `tcp_list`: the first table that has the quad. -/
def lookFlow (c : TcpList n) (q : Quad) : Option (Fin (n + 1) × Nat) :=
  (List.finRange (n + 1)).findSome? fun j => ((c j).tcp.rteHash.lookup q).map fun p => (j, p)

def actOn (K : RteCksum) (env : Env) (c : TcpList n) (cmd : Cmd) (j : Fin (n + 1)) (p : Nat) :
    Except Stop (CliDone n) :=
  match (c j).heap.read p with
  | none => .error .crash -- a dangling pointer
  | some conn =>
    match cliAct K env (c j).tcp conn cmd with
    | none => .error .crash
    | some (d, frames) =>
      .ok ⟨Function.update c j { c j with heap := (c j).heap.write p d }, frames, some (j, p)⟩

def cliExecute (K : RteCksum) (env : Env) (c : TcpList n) : Action → Except Stop (CliDone n)
  | .nothing => .ok ⟨c, [], none⟩
  | .launch => .ok ⟨c, [], none⟩
  | .quit => .ok ⟨c, [], none⟩
  | .dump => .ok ⟨c, [], none⟩
  | .exit => .error .exit
  | .crash => .error .crash
  | .onFlow cmd q =>
    match lookFlow c { q with pad := env.pad } with
    | none => .ok ⟨c, [], none⟩ -- connection not found
    | some (j, p) => actOn K env c cmd j p
  | .connect dip dport sport =>
    match activeConnect K env (c firstCore) dip dport sport with
    | none => .error .crash
    | some (k, out) => .ok ⟨Function.update c firstCore k, out.frames, none⟩

def cliProcess (K : RteCksum) (env : Env) (stale : Nat → List Byte) (c : TcpList n)
    (line : List Byte) : Except Stop (CliDone n) :=
  cliExecute K env c (cliAction stale line)

/-! ### The search -/

theorem lookFlow_none {c : TcpList n} {q : Quad} :
    lookFlow c q = none ↔ ∀ j, (c j).tcp.rteHash.lookup q = none := by
  unfold lookFlow
  rw [List.findSome?_eq_none_iff]
  simp only [List.mem_finRange, true_implies, Option.map_eq_none_iff]

theorem lookFlow_some {c : TcpList n} {q : Quad} {j : Fin (n + 1)} {p : Nat}
    (h : lookFlow c q = some (j, p)) :
    (c j).tcp.rteHash.lookup q = some p ∧ ∀ i, i < j → (c i).tcp.rteHash.lookup q = none := by
  unfold lookFlow at h
  obtain ⟨before, i, after, hl, hi, hbefore⟩ := List.findSome?_eq_some_iff.mp h
  obtain ⟨p', hp, he⟩ := Option.map_eq_some_iff.mp hi
  cases he
  refine ⟨hp, fun i hij => ?_⟩
  have hmem : i ∈ before ++ j :: after := hl ▸ List.mem_finRange i
  have hsorted := List.pairwise_lt_finRange (n + 1)
  rw [hl, List.pairwise_append, List.pairwise_cons] at hsorted
  rcases List.mem_append.mp hmem with hi | hi
  · exact Option.map_eq_none_iff.mp (hbefore i hi)
  · rcases List.mem_cons.mp hi with rfl | hi
    · exact absurd hij (lt_irrefl _)
    · exact absurd hij (hsorted.2.1.1 i hi).asymm

end

/-! ## Requests -/

/-- The commands that reach the stack, as they are typed. -/
inductive Request where
  | onFlow (cmd : Cmd) (sip sport dip dport : List Byte)
  | connect (dip dport : List Byte)

def Request.tokens : Request → List (List Byte)
  | .onFlow .flow a p b r => [ascii "flow", a, p, b, r]
  | .onFlow .close a p b r => [ascii "close", a, p, b, r]
  | .onFlow (.send data) a p b r => [ascii "send", a, p, b, r, data]
  | .connect a p => [ascii "connect", a, p]

def Request.addresses : Request → List (List Byte)
  | .onFlow _ a _ b _ => [a, b]
  | .connect a _ => [a]

def Request.ports : Request → List (List Byte)
  | .onFlow _ _ p _ r => [p, r]
  | .connect _ p => [p]

def Request.Malformed (r : Request) : Prop :=
  (∃ a ∈ r.addresses, ¬DottedQuad a) ∨ ∃ p ∈ r.ports, ¬IsNumber 65535 p

def requestQuad (a p b r : List Byte) : Option Quad :=
  (stringToIp a).bind fun sip => (stringToIp b).map fun dip => {
    sip := rteCpuToBe32 sip
    sport := rteCpuToBe16 ((atoi p).setWidth 16)
    dip := rteCpuToBe32 dip
    dport := rteCpuToBe16 ((atoi r).setWidth 16)
    pad := 0 }

def Request.action : Request → Action
  | .onFlow cmd a p b r => ((requestQuad a p b r).map (Action.onFlow cmd)).getD .exit
  | .connect a p => ((stringToIp a).map fun dip => Action.connect (rteCpuToBe32 dip)
      (rteCpuToBe16 ((atoi p).setWidth 16)) (rteCpuToBe16 8000)).getD .exit

section
variable {tokens : Tokens} {a p b r : List Byte}

theorem readQuad_value (h1 : (tokens 1).run.value = some a) (h2 : (tokens 2).run.value = some p)
    (h3 : (tokens 3).run.value = some b) (h4 : (tokens 4).run.value = some r) :
    (readQuad tokens).run.value = some (requestQuad a p b r) := by
  unfold readQuad requestQuad
  rw [OptionT.value_bind, h1, Option.bind_some]
  cases stringToIp a with
  | none => rfl
  | some sip =>
    dsimp only
    rw [OptionT.value_bind, h2, Option.bind_some, OptionT.value_bind, h3, Option.bind_some]
    cases stringToIp b with
    | none => rfl
    | some dip =>
      dsimp only
      rw [OptionT.value_bind, h4]
      rfl

theorem cliOnFlow_value {nTokens arity : Nat} {m : OptionT (Logged Nat) Cmd} {cmd : Cmd}
    (hn : nTokens = arity) (hm : m.run.value = some cmd) (h1 : (tokens 1).run.value = some a)
    (h2 : (tokens 2).run.value = some p) (h3 : (tokens 3).run.value = some b)
    (h4 : (tokens 4).run.value = some r) :
    (cliOnFlow tokens nTokens arity m).run.value.map Command.action =
      some (Request.onFlow cmd a p b r).action := by
  unfold cliOnFlow Request.action
  dsimp only
  rw [if_neg (not_not.mpr hn), OptionT.value_bind, readQuad_value h1 h2 h3 h4, Option.bind_some]
  cases requestQuad a p b r with
  | none => rfl
  | some q =>
    dsimp only
    rw [OptionT.value_bind, hm]
    rfl

theorem cliConnect_value (h1 : (tokens 1).run.value = some a) (h2 : (tokens 2).run.value = some p) :
    (cliConnect tokens).run.value.map Command.action = some (Request.connect a p).action := by
  unfold cliConnect Request.action
  dsimp only
  rw [OptionT.value_bind, h1, Option.bind_some]
  cases stringToIp a with
  | none => rfl
  | some dip =>
    dsimp only
    rw [OptionT.value_bind, h2]
    rfl

end

theorem cliAction_request {stale : Nat → List Byte} {line : List Byte} {r : Request}
    (h : lineTokens line = some r.tokens) : cliAction stale line = r.action := by
  have hvalue : (cliTokens (tokenAt r.tokens stale) r.tokens.length).run.value.map Command.action =
      some r.action := by
    cases r with
    | onFlow cmd a p b r =>
      cases cmd with
      | flow =>
        rw [cliTokens_flow rfl]
        exact cliOnFlow_value rfl rfl rfl rfl rfl rfl
      | close =>
        rw [cliTokens_close rfl]
        exact cliOnFlow_value rfl rfl rfl rfl rfl rfl
      | send data =>
        rw [cliTokens_send rfl]
        exact cliOnFlow_value rfl rfl rfl rfl rfl rfl
    | connect a p =>
      rw [(cliTokens_connect (P := fun _ => True) rfl).1]
      exact cliConnect_value rfl rfl
  have hne : r.tokens.length ≠ 0 := by
    unfold Request.tokens
    split <;> exact Nat.succ_ne_zero _
  unfold cliAction cliCommand
  rw [h]
  dsimp only
  rw [if_neg hne, hvalue]
  rfl

/-! ### Back from the command to the line -/

section
variable {tokens : Tokens} {q : Quad}

theorem readQuad_some (h : (readQuad tokens).run.value = some (some q)) : ∃ a p b r,
    (tokens 1).run.value = some a ∧ (tokens 2).run.value = some p ∧
      (tokens 3).run.value = some b ∧ (tokens 4).run.value = some r ∧
        requestQuad a p b r = some q := by
  have hv := h
  unfold readQuad at h
  rw [OptionT.value_bind] at h
  obtain ⟨a, ha, h⟩ := Option.bind_eq_some_iff.mp h
  cases hsip : stringToIp a with
  | none => rw [hsip] at h; cases h
  | some sip =>
    simp only [hsip, OptionT.value_bind] at h
    obtain ⟨p, hp, h⟩ := Option.bind_eq_some_iff.mp h
    obtain ⟨b, hb, h⟩ := Option.bind_eq_some_iff.mp h
    cases hdip : stringToIp b with
    | none => rw [hdip] at h; cases h
    | some dip =>
      simp only [hdip, OptionT.value_bind] at h
      obtain ⟨r, hr, -⟩ := Option.bind_eq_some_iff.mp h
      exact ⟨a, p, b, r, ha, hp, hb, hr, Option.some.inj ((readQuad_value ha hp hb hr).symm.trans hv)⟩

theorem cliOnFlow_some {nTokens arity : Nat} {m : OptionT (Logged Nat) Cmd} {cmd : Cmd}
    (h : (cliOnFlow tokens nTokens arity m).run.value.map Command.action = some (.onFlow cmd q)) :
    nTokens = arity ∧ m.run.value = some cmd ∧ (readQuad tokens).run.value = some (some q) := by
  unfold cliOnFlow at h
  by_cases hn : nTokens = arity
  · rw [if_neg (not_not.mpr hn), OptionT.value_bind] at h
    cases hq : (readQuad tokens).run.value with
    | none => rw [hq] at h; cases h
    | some o =>
      cases o with
      | none => rw [hq] at h; cases h
      | some x =>
        rw [hq, Option.bind_some, OptionT.value_bind] at h
        cases hm : m.run.value with
        | none => rw [hm] at h; cases h
        | some y =>
          rw [hm] at h
          cases h
          exact ⟨hn, rfl, rfl⟩
  · rw [if_pos hn] at h
    cases h

theorem strcmp_some {t : OptionT (Logged Nat) (List Byte)} {w : List Byte}
    {m k : OptionT (Logged Nat) Command} {action : Action}
    (h : (t >>= fun x => if x = w then m else k).run.value.map Command.action = some action) :
    t.run.value = some w ∧ m.run.value.map Command.action = some action ∨
      k.run.value.map Command.action = some action := by
  rw [OptionT.value_bind] at h
  cases ht : t.run.value with
  | none => rw [ht] at h; cases h
  | some x =>
    rw [ht, Option.bind_some] at h
    by_cases hx : x = w
    · rw [if_pos hx] at h
      exact Or.inl ⟨congrArg some hx, h⟩
    · rw [if_neg hx] at h
      exact Or.inr h

/-- Only the word send makes the interpreter send. -/
theorem cliTokens_sends {nTokens : Nat} {data : List Byte}
    (h : (cliTokens tokens nTokens).run.value.map Command.action = some (.onFlow (.send data) q)) :
    (tokens 0).run.value = some (ascii "send") ∧ nTokens = 6 ∧ (tokens 5).run.value = some data ∧
      (readQuad tokens).run.value = some (some q) := by
  unfold cliTokens at h
  rcases strcmp_some h with ⟨-, h⟩ | h
  · rw [OptionT.value_bind] at h
    cases hv : (cmdHelp tokens nTokens).run.value with
    | none => rw [hv] at h; cases h
    | some out => rw [hv] at h; cases h
  -- from "ddio" to "dump"
  iterate 7 rcases strcmp_some h with ⟨-, h⟩ | h; · cases h
  rcases strcmp_some h with ⟨-, h⟩ | h
  · cases (cliOnFlow_some h).2.1
  rcases strcmp_some h with ⟨-, h⟩ | h
  · cases (cliOnFlow_some h).2.1
  rcases strcmp_some h with ⟨hw, h⟩ | h
  · obtain ⟨hn, hm, hq⟩ := cliOnFlow_some h
    rw [OptionT.value_bind] at hm
    obtain ⟨d, hd, he⟩ := Option.bind_eq_some_iff.mp hm
    cases he
    exact ⟨hw, hn, hd, hq⟩
  rcases strcmp_some h with ⟨-, h⟩ | h
  · unfold cliConnect at h
    rw [OptionT.value_bind] at h
    cases h1 : (tokens 1).run.value with
    | none => rw [h1] at h; cases h
    | some a =>
      rw [h1, Option.bind_some] at h
      cases hip : stringToIp a with
      | none => rw [hip] at h; cases h
      | some dip =>
        simp only [hip, OptionT.value_bind] at h
        cases h2 : (tokens 2).run.value with
        | none => rw [h2] at h; cases h
        | some p => rw [h2] at h; cases h
  · rw [OptionT.value_bind] at h
    cases h0 : (tokens 0).run.value with
    | none => rw [h0] at h; cases h
    | some t => rw [h0] at h; cases h

end

theorem cliAction_send {stale : Nat → List Byte} {line data : List Byte} {q : Quad} :
    cliAction stale line = .onFlow (.send data) q ↔ ∃ a p b r,
      lineTokens line = some (Request.onFlow (.send data) a p b r).tokens ∧
        requestQuad a p b r = some q := by
  constructor
  · intro h
    unfold cliAction cliCommand at h
    cases hl : lineTokens line with
    | none => rw [hl] at h; cases h
    | some tokens =>
      rw [hl] at h
      dsimp only at h
      by_cases h0 : tokens.length = 0
      · rw [if_pos h0] at h
        cases h
      · rw [if_neg h0] at h
        have hv : (cliTokens (tokenAt tokens stale) tokens.length).run.value.map Command.action =
            some (.onFlow (.send data) q) := by
          cases hval : (cliTokens (tokenAt tokens stale) tokens.length).run.value with
          | none => rw [hval] at h; cases h
          | some c => rw [hval] at h; exact congrArg some h
        obtain ⟨hw, hn, hd, hq⟩ := cliTokens_sends hv
        obtain ⟨a, p, b, r, ha, hp, hb, hr, hquad⟩ := readQuad_some hq
        match tokens, hn with
        | [w, a', p', b', r', d], _ =>
          cases hw
          cases ha
          cases hp
          cases hb
          cases hr
          cases hd
          exact ⟨a', p', b', r', rfl, hquad⟩
  · rintro ⟨a, p, b, r, hl, hq⟩
    rw [cliAction_request hl]
    unfold Request.action
    dsimp only
    rw [hq]
    rfl

theorem cliProcess_request {n : Nat} {K : RteCksum} {env : Env} {stale : Nat → List Byte}
    {c : TcpList n} {line : List Byte} {r : Request} (h : lineTokens line = some r.tokens) :
    cliProcess K env stale c line = cliExecute K env c r.action :=
  congrArg (cliExecute K env c) (cliAction_request h)

/-! ## Malformed operands -/

section
variable {n : Nat} {K : RteCksum} {env : Env} {c : TcpList n}

/-- Every address begins with four numbers, and what the operands are read as is a quad
no core has, or, for `connect`, one the first core has already. -/
def Request.Harmless (c : TcpList n) (env : Env) : Request → Prop
  | .onFlow _ a p b r => ∃ q, requestQuad a p b r = some q ∧
      ∀ j, (c j).tcp.rteHash.lookup { q with pad := env.pad } = none
  | .connect a p => ∃ dip, stringToIp a = some dip ∧
      (c firstCore).tcp.rteHash.lookup (connectQuad (c firstCore).tcp.nic env.pad (rteCpuToBe32 dip)
        (rteCpuToBe16 ((atoi p).setWidth 16)) (rteCpuToBe16 8000)) ≠ none

theorem actOn_acted {cmd : Cmd} {j : Fin (n + 1)} {p : Nat} {done : CliDone n}
    (h : actOn K env c cmd j p = .ok done) : done.acted = some (j, p) := by
  unfold actOn at h
  split at h
  · cases h
  · split at h
    · cases h
    · cases h
      rfl

theorem activeConnect_same {k : Core} {dip : BitVec 32} {dport sport : BitVec 16} {out : Out}
    (h : activeConnect K env k dip dport sport = some (k, out)) :
    k.tcp.rteHash.lookup (connectQuad k.tcp.nic env.pad dip dport sport) ≠ none := by
  intro hnone
  simp only [activeConnect, hnone] at h
  split at h
  · cases h
  · obtain ⟨x, -, he⟩ := Option.map_eq_some_iff.mp h
    -- a connection made is an address given out
    have hheap := congrArg (fun k : Core => k.heap.next) (Prod.mk.inj he).1
    exact absurd hheap (Nat.succ_ne_self _)

/-- A request changes nothing, sends nothing and is applied to no connection, and the
process goes on, exactly if it is harmless. -/
theorem execute_harmless (r : Request) :
    cliExecute K env c r.action = .ok ⟨c, [], none⟩ ↔ r.Harmless c env := by
  cases r with
  | onFlow cmd a p b r =>
    unfold Request.action Request.Harmless
    dsimp only
    cases hq : requestQuad a p b r with
    | none => exact iff_of_false (fun h => nomatch h) fun ⟨_, h, _⟩ => nomatch h
    | some q =>
      show (match lookFlow c { q with pad := env.pad } with
        | none => _
        | some (j, p) => actOn K env c cmd j p) = _ ↔ _
      constructor
      · intro h
        refine ⟨q, rfl, lookFlow_none.mp ?_⟩
        cases hl : lookFlow c { q with pad := env.pad } with
        | none => rfl
        | some x =>
          simp only [hl] at h
          exact absurd (actOn_acted h) (fun h => nomatch h)
      · intro ⟨q', hq', hnone⟩
        cases hq'
        rw [lookFlow_none.mpr hnone]
  | connect a p =>
    unfold Request.action Request.Harmless
    dsimp only
    cases stringToIp a with
    | none => exact iff_of_false (fun h => nomatch h) fun ⟨_, h, _⟩ => nomatch h
    | some dip =>
      simp only [Option.map_some, Option.getD_some, cliExecute, Option.some.injEq, exists_eq_left']
      generalize rteCpuToBe32 dip = dip
      generalize rteCpuToBe16 ((atoi p).setWidth 16) = dport
      constructor
      · intro h
        split at h
        · cases h
        · rename_i k out hk
          have hcores := congrArg CliDone.cores (Except.ok.inj h)
          have hsame : k = c firstCore := by
            rw [← Function.update_self firstCore k c]
            exact congrFun hcores firstCore
          exact activeConnect_same (hsame ▸ hk)
      · intro hfound
        obtain ⟨x, hx⟩ := Option.ne_none_iff_exists'.mp hfound
        simp only [activeConnect, hx, Function.update_eq_self]

/-- For every number of cores, every state of them and every line that is a request:
with a malformed operand it is refused without effect exactly if its operands, as far as
the library can read them, happen to be harmless. -/
theorem refused_iff {stale : Nat → List Byte} {line : List Byte} {r : Request}
    (h : lineTokens line = some r.tokens) :
    (r.Malformed → cliProcess K env stale c line = .ok ⟨c, [], none⟩) ↔
      (r.Malformed → r.Harmless c env) := by
  rw [cliProcess_request h, execute_harmless]

end

theorem refused_iff_port :
    ((Request.onFlow .close (ascii "10.0.0.2") (ascii "40000x") (ascii "10.0.0.1") (ascii "8000")).Malformed →
      cliProcess rfcCksum calm noTokens twoWorkers (ascii "close 10.0.0.2 40000x 10.0.0.1 8000") =
        .ok ⟨twoWorkers, [], none⟩) ↔
    ((Request.onFlow .close (ascii "10.0.0.2") (ascii "40000x") (ascii "10.0.0.1") (ascii "8000")).Malformed →
      (Request.onFlow .close (ascii "10.0.0.2") (ascii "40000x") (ascii "10.0.0.1")
        (ascii "8000")).Harmless twoWorkers calm) :=
  refused_iff (by decide +kernel)

/-- A name in place of an address ends the process. -/
theorem not_refused : ¬∀ (n : Nat) (K : RteCksum) (env : Env) (c : TcpList n)
    (stale : Nat → List Byte) (line : List Byte) (r : Request), lineTokens line = some r.tokens →
    r.Malformed → cliProcess K env stale c line = .ok ⟨c, [], none⟩ := by
  intro h
  have hmalformed : (Request.connect (ascii "localhost") (ascii "80")).Malformed := by
    refine Or.inl ⟨ascii "localhost", List.mem_singleton_self _, ?_⟩
    intro ⟨a, b, c, d, _, _, _, _, he⟩
    have hdot : dot ∈ ascii "localhost" := by
      rw [he]
      exact List.mem_append_right a (List.mem_cons_self ..)
    exact absurd hdot (by decide)
  have hok := h 1 rfcCksum calm twoWorkers noTokens (ascii "connect localhost 80")
    (.connect (ascii "localhost") (ascii "80")) (by decide +kernel) hmalformed
  rw [cliProcess_request (r := .connect (ascii "localhost") (ascii "80")) (by decide +kernel)] at hok
  have haction : (Request.connect (ascii "localhost") (ascii "80")).action = .exit := rfl
  rw [haction] at hok
  cases hok

/-! ## Printed operands -/

def Request.ofQuad (cmd : Cmd) (q : Quad) : Request :=
  .onFlow cmd (printIpv4 (rteBeToCpu32 q.sip)) (printU (rteBeToCpu16 q.sport).toNat)
    (printIpv4 (rteBeToCpu32 q.dip)) (printU (rteBeToCpu16 q.dport).toNat)

theorem printU_token (n : Nat) : IsToken (printU n) := by
  obtain ⟨hne, hd, -⟩ := isNumber_printU (le_refl n)
  refine ⟨hne, fun b hb => ?_⟩
  have h := (isDigit_iff b).mp (hd b hb)
  show decide (b ∈ parseDelimiter) = false
  rw [decide_eq_false_iff_not]
  intro hmem
  have hsmall : ∀ x ∈ parseDelimiter, x.toNat ≤ 32 := by decide
  have := hsmall b hmem
  omega

theorem append_token {t u : List Byte} (ht : IsToken t) (hu : IsToken u) :
    IsToken (t ++ dot :: u) := by
  refine ⟨fun h => ht.1 (List.append_eq_nil_iff.mp h).1, fun b hb => ?_⟩
  rcases List.mem_append.mp hb with hb | hb
  · exact ht.2 b hb
  · rcases List.mem_cons.mp hb with rfl | hb
    · decide
    · exact hu.2 b hb

theorem printIpv4_token (addr : BitVec 32) : IsToken (printIpv4 addr) :=
  append_token (printU_token _) (append_token (printU_token _)
    (append_token (printU_token _) (printU_token _)))

/-- What is typed for a command: its name, the line copied from the console and the data. -/
def typedLine (q : Quad) : Cmd → List Byte
  | .flow => ascii "flow " ++ dumpQuad q
  | .close => ascii "close " ++ dumpQuad q
  | .send data => ascii "send " ++ dumpQuad q ++ ascii " " ++ data

theorem lineTokens_typed (q : Quad) {cmd : Cmd} (hdata : ∀ data, cmd = .send data → IsToken data) :
    lineTokens (typedLine q cmd) = some (Request.ofQuad cmd q).tokens := by
  have hline : typedLine q cmd = joinTokens 0x20 (Request.ofQuad cmd q).tokens := by
    cases cmd <;> simp [typedLine, Request.ofQuad, Request.tokens, joinTokens, dumpQuad, ascii]
  have hcomment : isComment (typedLine q cmd) = false := by cases cmd <;> rfl
  have htokens : ∀ t ∈ (Request.ofQuad cmd q).tokens, IsToken t := by
    have hword : IsToken (ascii "flow") ∧ IsToken (ascii "close") ∧ IsToken (ascii "send") := by
      unfold IsToken
      decide
    have hsip := printIpv4_token (rteBeToCpu32 q.sip)
    have hdip := printIpv4_token (rteBeToCpu32 q.dip)
    have hsport := printU_token (rteBeToCpu16 q.sport).toNat
    have hdport := printU_token (rteBeToCpu16 q.dport).toNat
    cases cmd with
    | flow => simp [Request.ofQuad, Request.tokens, hword, hsip, hdip, hsport, hdport]
    | close => simp [Request.ofQuad, Request.tokens, hword, hsip, hdip, hsport, hdport]
    | send data =>
      simp [Request.ofQuad, Request.tokens, hword, hsip, hdip, hsport, hdport, hdata data rfl]
  have hlen : (Request.ofQuad cmd q).tokens.length ≤ cmdMaxTokens := by
    cases cmd <;> simp [Request.ofQuad, Request.tokens, cmdMaxTokens]
  unfold lineTokens
  rw [hcomment, if_neg (by decide), hline]
  exact parseTokenizeString_join (by decide) htokens hlen

/-! ### Finding the connection -/

theorem requestQuad_print (q : Quad) :
    requestQuad (printIpv4 (rteBeToCpu32 q.sip)) (printU (rteBeToCpu16 q.sport).toNat)
      (printIpv4 (rteBeToCpu32 q.dip)) (printU (rteBeToCpu16 q.dport).toNat) =
      some { q with pad := 0 } := by
  have back32 : ∀ x : BitVec 32, rteCpuToBe32 (rteBeToCpu32 x) = x := rteBeToCpu32_rteCpuToBe32
  have back16 : ∀ x : BitVec 16, rteCpuToBe16 (rteBeToCpu16 x) = x := rteBeToCpu16_rteCpuToBe16
  unfold requestQuad
  rw [stringToIp_print, stringToIp_print, atoi_print, atoi_print]
  simp only [Option.bind_some, Option.map_some, back32, back16]

section
variable {n : Nat} {K : RteCksum} {env : Env} {c : TcpList n}

/-- `cmd` was applied to the connection of the first core that has one for the four
fields of `q`, and to nothing else. -/
structure Applied (K : RteCksum) (env : Env) (c : TcpList n) (cmd : Cmd) (q : Quad)
    (j : Fin (n + 1)) (p : Nat) (conn d : Connection) (done : CliDone n) : Prop where
  first : ∀ i, i < j → ∀ x, x.SameFlow q → (c i).tcp.rteHash.lookup x = none
  entry : (c j).tcp.rteHash.lookup q = some p
  found : (c j).heap.read p = some conn
  key : conn.q = q
  acted : done.acted = some (j, p)
  act : cliAct K env (c j).tcp conn cmd = some (d, done.frames)
  written : (done.cores j).heap.read p = some d
  tables : ∀ i, (done.cores i).tcp = (c i).tcp
  others : ∀ i y, (i, y) ≠ (j, p) → (done.cores i).heap.read y = (c i).heap.read y

theorem actOn_applied {cmd : Cmd} {q : Quad} {j : Fin (n + 1)} {p : Nat} {conn d : Connection}
    {frames : List Frame}
    (hfirst : ∀ i, i < j → ∀ x, x.SameFlow q → (c i).tcp.rteHash.lookup x = none)
    (hl : (c j).tcp.rteHash.lookup q = some p) (hr : (c j).heap.read p = some conn)
    (hq : conn.q = q) (ha : cliAct K env (c j).tcp conn cmd = some (d, frames)) :
    ∃ done, actOn K env c cmd j p = .ok done ∧ Applied K env c cmd q j p conn d done := by
  refine ⟨⟨Function.update c j { c j with heap := (c j).heap.write p d }, frames, some (j, p)⟩, ?_,
    hfirst, hl, hr, hq, rfl, ha, ?_, ?_, ?_⟩
  · simp only [actOn, hr, ha]
  · dsimp only
    rw [Function.update_self]
    exact Store.Heap.read_write hr
  · intro i
    dsimp only
    by_cases hi : i = j
    · rw [hi, Function.update_self]
    · rw [Function.update_of_ne hi]
  · intro i y hne
    dsimp only
    by_cases hi : i = j
    · subst hi
      rw [Function.update_self]
      exact Store.Heap.read_write_ne fun hy => hne (by rw [hy])
    · rw [Function.update_of_ne hi]

theorem cliAct_exists (t : Tcp) (conn : Connection) {cmd : Cmd}
    (hdata : ∀ data, cmd = .send data → data.length < 2 ^ 31) :
    ∃ d frames, cliAct K env t conn cmd = some (d, frames) := by
  cases cmd with
  | close =>
    obtain ⟨frames, h⟩ := tcpTxPackets_empty K env t conn.finRaised Mem.null
    exact ⟨_, frames, by simp only [cliAct, activeClose, h, Option.map_some]; rfl⟩
  | flow => exact ⟨conn, [], rfl⟩
  | send data =>
    have hlen := hdata data rfl
    have hmsb : (sizeT (BitVec.ofNat 32 data.length)).msb = false := by
      rw [sizeT_msb, decide_eq_false_iff_not, BitVec.toInt_eq_toNat_cond, BitVec.toNat_ofNat]
      omega
    have hs : ∃ frames, sendP env t (txHeaders K (conn.loaded (tokenMem data) (BitVec.ofNat 32 data.length))
        (sizeT (BitVec.ofNat 32 data.length))) (tokenMem data) (sizeT (BitVec.ofNat 32 data.length)) =
          some frames := by
      unfold sendP
      split
      · exact ⟨_, rfl⟩
      · exact ⟨_, if_neg (by rw [hmsb]; decide)⟩
    obtain ⟨frames, hs⟩ := hs
    exact ⟨_, frames, by simp only [cliAct, activeSendData, tcpTxPackets, hs, Option.map_some]; rfl⟩

theorem lineTokens_length {line : List Byte} {ts : List (List Byte)} (h : lineTokens line = some ts) :
    ∀ t ∈ ts, t.length ≤ line.length := by
  unfold lineTokens parseTokenizeString at h
  dsimp only at h
  split at h
  · cases h
    exact fun _ h => nomatch h
  · split at h
    · cases h
      exact strtokLoop_token_length _ line
    · cases h

/-- In every state that any number of cores can come to: a connection whose address and
port strings are typed back as `dump_connection` prints them is found by its four fields,
in the first core that has one for them, and the command is applied to it alone. The key
is found by its four fields where the bytes between them agree. -/
theorem typedBack {r : Rss n} {tr : List (coresMachine K r).Event} (hrun : Machine.Run tr c)
    (hkeys : ∀ j q p, (c j).tcp.rteHash.lookup q = some p → q.pad = env.pad)
    {j : Fin (n + 1)} {q : Quad} {p : Nat} {conn : Connection}
    (hl : (c j).tcp.rteHash.lookup q = some p) (hr : (c j).heap.read p = some conn)
    {line : List Byte} (hlen : line.length ≤ msgInLenMax) {cmd : Cmd}
    (hline : lineTokens line = some (Request.ofQuad cmd conn.q).tokens) (stale : Nat → List Byte) :
    (∃ q', cliAction stale line = .onFlow cmd q' ∧ q'.SameFlow q) ∧
      ∃ j' p' conn' d done, cliProcess K env stale c line = .ok done ∧
        Applied K env c cmd q j' p' conn' d done := by
  have hrep := run_cores_rep hrun
  have hq : conn.q = q := (hrep j).key (conn_of_lookup hl hr)
  rw [hq] at hline
  have haction : (Request.ofQuad cmd q).action = .onFlow cmd { q with pad := 0 } := by
    unfold Request.ofQuad Request.action
    dsimp only
    rw [requestQuad_print]
    rfl
  refine ⟨⟨{ q with pad := 0 }, by rw [cliAction_request hline, haction], rfl, rfl, rfl, rfl⟩, ?_⟩
  have hpad : ({ ({ q with pad := 0 } : Quad) with pad := env.pad } : Quad) = q := by
    rw [← hkeys j q p hl]
  -- a table that has the four fields has the key itself
  have hsame : ∀ i x p', x.SameFlow q → (c i).tcp.rteHash.lookup x = some p' → x = q := by
    intro i x p' hs hx
    exact hs.eq_iff.mpr ((hkeys i x p' hx).trans (hkeys j q p hl).symm)
  cases hlook : lookFlow c q with
  | none =>
    have := lookFlow_none.mp hlook j
    cases hl.symm.trans this
  | some x =>
    obtain ⟨j', p'⟩ := x
    obtain ⟨hl', hbefore⟩ := lookFlow_some hlook
    obtain ⟨conn', hr', hq'⟩ := hrep j' q p' hl'
    have hdata : ∀ data, cmd = .send data → data.length < 2 ^ 31 := by
      intro data hd
      subst hd
      have hle := lineTokens_length hline data (by simp [Request.ofQuad, Request.tokens])
      have hmax : msgInLenMax < 2 ^ 31 := by decide
      omega
    obtain ⟨d, frames, ha⟩ := cliAct_exists (K := K) (c j').tcp conn' hdata
    have hfirst : ∀ i, i < j' → ∀ x, x.SameFlow q → (c i).tcp.rteHash.lookup x = none := by
      intro i hi x hs
      by_contra hne
      obtain ⟨px, hx⟩ := Option.ne_none_iff_exists'.mp hne
      rw [hsame i x px hs hx, hbefore i hi] at hx
      cases hx
    obtain ⟨done, hdone, happ⟩ := actOn_applied hfirst hl' hr' hq' ha
    refine ⟨j', p', conn', d, done, ?_, happ⟩
    rw [cliProcess_request hline, haction]
    simp only [cliExecute, hpad, hlook]
    exact hdone

end

/-- The second of two cores knows nothing of the connection the first one made. -/
theorem typedBack_close : ∃ (c : TcpList 1) (done : CliDone 1) (conn' d : Connection)
    (j' : Fin 2) (p' : Nat),
    cliProcess rfcCksum calm noTokens c (typedLine peerQuad .close) = .ok done ∧
      Applied rfcCksum calm c .close peerQuad j' p' conn' d done := by
  obtain ⟨tr, c, hr, hQ⟩ := Machine.exists_run (twoWorkers_init rfcCksum (rssTo 0)) [userConnect]
    (Q := fun r => (r.2 0).tcp.rteHash.lookup peerQuad = some 0 ∧
      ∀ j : Fin 2, ∀ q ∈ (r.2 j).tcp.rteHash.map.keys, q.pad = calm.pad) (by decide +kernel)
  obtain ⟨hl, hpad⟩ := of_decide_eq_true hQ
  obtain ⟨conn, hread, hq⟩ := run_cores_rep hr 0 peerQuad 0 hl
  have hkeys : ∀ j q p, (c j).tcp.rteHash.lookup q = some p → q.pad = calm.pad := by
    intro j q p hlook
    refine hpad j q (AList.mem_keys.mp (AList.lookup_isSome.mp ?_))
    exact Option.isSome_iff_exists.mpr ⟨p, hlook⟩
  have hlen : (typedLine conn.q .close).length ≤ msgInLenMax := by rw [hq]; decide +kernel
  obtain ⟨-, j', p', conn', d, done, hdone, happ⟩ := typedBack hr hkeys hl hread hlen
    (lineTokens_typed conn.q fun _ h => nomatch h) noTokens
  rw [hq] at hdone
  exact ⟨c, done, conn', d, j', p', hdone, happ⟩

/-! ## Room for the data -/

/-- `rte_ipv4_udptcp_cksum` reads the pseudo-header and as much memory from the TCP header
on as the total length says. -/
def RteCksum.ReadsL4 (K : RteCksum) : Prop :=
  ∀ (h : Ipv4Hdr) (m m' : Mem), (∀ i, i < (l4Len h).toNat → m i = m' i) →
    K.rteIpv4UdptcpCksum h m = K.rteIpv4UdptcpCksum h m'

section
variable {K : RteCksum} {c : Connection} {data : Mem} {size : BitVec 32}

/-- The writes stay in the array, and the checksum computed afterwards comes from the
header and from what was written. -/
structure PayloadInside (K : RteCksum) (c : Connection) (data : Mem) (size : BitVec 32) : Prop where
  writes : ∀ i ∈ payloadWrites size, i < sizeofPayload
  checksum : ∀ m : Mem, (∀ i ∈ payloadWrites size, m i = (c.loaded data size).payload i) →
    (txHeaders K { c.loaded data size with payload := m } (sizeT size)).rteTcpHdr =
      (txHeaders K (c.loaded data size) (sizeT size)).rteTcpHdr

theorem payload_checksum (hK : K.ReadsL4) (hpos : 0 ≤ size.toInt) (hsize : size.toInt ≤ 65495)
    {m : Mem} (hm : ∀ i ∈ payloadWrites size, m i = c.payload i) :
    (txHeaders K { c with payload := m } (sizeT size)).rteTcpHdr =
      (txHeaders K c (sizeT size)).rteTcpHdr := by
  have hn := sizeT_toNat hpos
  have htotal := txHeaders_totalLength (K := K) c (n := sizeT size) (by omega)
  have hlen : (l4Len (txHeaders K c (sizeT size)).rteIpv4Hdr).toNat = 20 + (sizeT size).toNat := by
    unfold l4Len
    rw [BitVec.toNat_sub_of_le (by rw [BitVec.le_def, htotal]; simp; omega), htotal]
    simp
    omega
  unfold txHeaders
  dsimp only
  congr 1
  refine hK _ _ _ fun i hi => ?_
  change i < (l4Len (txHeaders K c (sizeT size)).rteIpv4Hdr).toNat at hi
  unfold tcpMem
  by_cases hi20 : i < sizeofTcpHdr
  · rw [if_pos hi20, if_pos hi20]
  · rw [if_neg hi20, if_neg hi20]
    have h20 : sizeofTcpHdr = 20 := rfl
    refine hm _ ?_
    unfold payloadWrites
    rw [List.mem_range]
    omega

end

/-- The call of `active_send_data` that `cli_process` makes on a line, if it makes one: the
connection and the data it is given. -/
def cliSends {n : Nat} (env : Env) (stale : Nat → List Byte) (c : TcpList n) (line : List Byte) :
    Option (Connection × List Byte) :=
  match cliAction stale line with
  | .onFlow (.send data) q =>
    (lookFlow c { q with pad := env.pad }).bind fun (j, p) =>
      ((c j).heap.read p).map fun conn => (conn, data)
  | _ => none

/-- The line is a send whose addresses can be read, and some table has its quad. -/
def SendFinds {n : Nat} (env : Env) (c : TcpList n) (line data : List Byte) : Prop :=
  ∃ a p b r q, lineTokens line = some (Request.onFlow (.send data) a p b r).tokens ∧
    requestQuad a p b r = some q ∧
      ∃ j, (c j).tcp.rteHash.lookup { q with pad := env.pad } ≠ none

section
variable {n : Nat} {K : RteCksum} {env : Env} {stale : Nat → List Byte} {c : TcpList n}
  {line data : List Byte}

theorem cliSends_some {conn : Connection} : cliSends env stale c line = some (conn, data) ↔
    ∃ q j p, cliAction stale line = .onFlow (.send data) q ∧
      lookFlow c { q with pad := env.pad } = some (j, p) ∧ (c j).heap.read p = some conn := by
  unfold cliSends
  constructor
  · intro h
    split at h
    · rename_i d q ha
      obtain ⟨⟨j, p⟩, hl, h⟩ := Option.bind_eq_some_iff.mp h
      obtain ⟨conn', hr, he⟩ := Option.map_eq_some_iff.mp h
      cases he
      exact ⟨q, j, p, ha, hl, hr⟩
    · cases h
  · rintro ⟨q, j, p, ha, hl, hr⟩
    rw [ha]
    dsimp only
    rw [hl, Option.bind_some]
    dsimp only
    rw [hr]
    rfl

variable (K env stale c line) in
/-- What `cli_process` does to the arrays of the connections. -/
structure CliInside : Prop where
  /-- The line is carried out as a call of `active_send_data`, -/
  sends : ∀ conn data, cliSends env stale c line = some (conn, data) →
    ∃ j p, (c j).heap.read p = some conn ∧ cliProcess K env stale c line =
      match activeSendData K env (c j).tcp conn (tokenMem data) (BitVec.ofNat 32 data.length) with
      | none => .error .crash
      | some (d, frames) =>
        .ok ⟨Function.update c j { c j with heap := (c j).heap.write p d }, frames, some (j, p)⟩
  /-- or no array is touched; -/
  only : ∀ done, cliProcess K env stale c line = .ok done → ∀ j p d,
    (c j).heap.read p = some d → ∃ d', (done.cores j).heap.read p = some d' ∧
      (d'.payload ≠ d.payload → ∃ data, cliSends env stale c line = some (d, data) ∧
        d'.payload = (d.loaded (tokenMem data) (BitVec.ofNat 32 data.length)).payload)
  /-- and the call stays in the array. -/
  inside : ∀ conn data, cliSends env stale c line = some (conn, data) →
    PayloadInside K conn (tokenMem data) (BitVec.ofNat 32 data.length)

theorem cliProcess_sends {conn : Connection} (h : cliSends env stale c line = some (conn, data)) :
    ∃ j p, (c j).heap.read p = some conn ∧ cliProcess K env stale c line =
      match activeSendData K env (c j).tcp conn (tokenMem data) (BitVec.ofNat 32 data.length) with
      | none => .error .crash
      | some (d, frames) =>
        .ok ⟨Function.update c j { c j with heap := (c j).heap.write p d }, frames, some (j, p)⟩ := by
  obtain ⟨q, j, p, ha, hl, hr⟩ := cliSends_some.mp h
  refine ⟨j, p, hr, ?_⟩
  unfold cliProcess
  rw [ha]
  simp only [cliExecute, hl, actOn, hr]
  rfl

theorem actOn_arrays {cmd : Cmd} {i : Fin (n + 1)} {x : Nat} {done : CliDone n}
    (h : actOn K env c cmd i x = .ok done) {j : Fin (n + 1)} {p : Nat} {d : Connection}
    (hr : (c j).heap.read p = some d) : ∃ d', (done.cores j).heap.read p = some d' ∧
      (d'.payload ≠ d.payload → j = i ∧ p = x ∧ ∃ data, cmd = .send data ∧
        d'.payload = (d.loaded (tokenMem data) (BitVec.ofNat 32 data.length)).payload) := by
  unfold actOn at h
  split at h
  · cases h
  · rename_i conn hread
    split at h
    · cases h
    · rename_i e frames hact
      cases h
      dsimp only
      by_cases hji : j = i
      · subst hji
        rw [Function.update_self]
        by_cases hpx : p = x
        · subst hpx
          obtain rfl := Option.some.inj (hread.symm.trans hr)
          refine ⟨e, Store.Heap.read_write hread, fun hne => ⟨rfl, rfl, ?_⟩⟩
          cases cmd with
          | close =>
            obtain ⟨⟨f, fs⟩, hf, he⟩ := Option.map_eq_some_iff.mp hact
            obtain ⟨rfl, -⟩ := tcpTxPackets_some hf
            cases he
            exact absurd (sent_payload ..) hne
          | send data =>
            obtain ⟨rfl, -⟩ := tcpTxPackets_some hact
            exact ⟨data, rfl, sent_payload ..⟩
          | flow =>
            cases hact
            exact absurd rfl hne
        · exact ⟨d, (Store.Heap.read_write_ne hpx).trans hr, fun hne => absurd rfl hne⟩
      · rw [Function.update_of_ne hji]
        exact ⟨d, hr, fun hne => absurd rfl hne⟩

theorem activeConnect_read {k k' : Core} {dip : BitVec 32} {dport sport : BitVec 16} {out : Out}
    (h : activeConnect K env k dip dport sport = some (k', out)) {p : Nat} {d : Connection}
    (hr : k.heap.read p = some d) : k'.heap.read p = some d := by
  unfold activeConnect at h
  dsimp only at h
  split at h
  · split at h
    · cases h
    · obtain ⟨⟨f, fs⟩, -, he⟩ := Option.map_eq_some_iff.mp h
      cases he
      exact Store.Heap.read_alloc_of_read hr
  · cases h
    exact hr

theorem cliProcess_arrays {done : CliDone n} (h : cliProcess K env stale c line = .ok done)
    {j : Fin (n + 1)} {p : Nat} {d : Connection} (hr : (c j).heap.read p = some d) :
    ∃ d', (done.cores j).heap.read p = some d' ∧ (d'.payload ≠ d.payload →
      ∃ data, cliSends env stale c line = some (d, data) ∧
        d'.payload = (d.loaded (tokenMem data) (BitVec.ofNat 32 data.length)).payload) := by
  have same : ∃ d', (c j).heap.read p = some d' ∧ (d'.payload ≠ d.payload →
      ∃ data, cliSends env stale c line = some (d, data) ∧
        d'.payload = (d.loaded (tokenMem data) (BitVec.ofNat 32 data.length)).payload) :=
    ⟨d, hr, fun hne => absurd rfl hne⟩
  unfold cliProcess at h
  generalize ha : cliAction stale line = action at h
  cases action with
  | nothing => cases h; exact same
  | launch => cases h; exact same
  | quit => cases h; exact same
  | dump => cases h; exact same
  | exit => cases h
  | crash => cases h
  | onFlow cmd q =>
    simp only [cliExecute] at h
    split at h
    · cases h
      exact same
    · rename_i i x hl
      obtain ⟨d', hr', hd'⟩ := actOn_arrays h hr
      refine ⟨d', hr', fun hne => ?_⟩
      obtain ⟨rfl, rfl, data, rfl, hpayload⟩ := hd' hne
      exact ⟨data, cliSends_some.mpr ⟨q, j, p, ha, hl, hr⟩, hpayload⟩
  | connect dip dport sport =>
    simp only [cliExecute] at h
    split at h
    · cases h
    · rename_i k out hk
      cases h
      refine ⟨d, ?_, fun hne => absurd rfl hne⟩
      by_cases hj : j = firstCore
      · subst hj
        dsimp only
        rw [Function.update_self]
        exact activeConnect_read hk hr
      · exact (congrArg (fun k : Core => k.heap.read p) (Function.update_of_ne hj ..)).trans hr

theorem exists_cliSends (hrep : ∀ j, (c j).Rep) :
    (∃ conn, cliSends env stale c line = some (conn, data)) ↔ SendFinds env c line data := by
  constructor
  · rintro ⟨conn, h⟩
    obtain ⟨q, j, p, ha, hl, -⟩ := cliSends_some.mp h
    obtain ⟨a, t, b, r, hline, hq⟩ := cliAction_send.mp ha
    refine ⟨a, t, b, r, q, hline, hq, j, ?_⟩
    rw [(lookFlow_some hl).1]
    exact Option.some_ne_none p
  · rintro ⟨a, t, b, r, q, hline, hq, i, hi⟩
    cases hl : lookFlow c { q with pad := env.pad } with
    | none => exact absurd (lookFlow_none.mp hl i) hi
    | some x =>
      obtain ⟨j, p⟩ := x
      obtain ⟨conn, hr, -⟩ := hrep j _ p (lookFlow_some hl).1
      exact ⟨conn, cliSends_some.mpr ⟨q, j, p, cliAction_send.mpr ⟨a, t, b, r, hline, hq⟩, hl, hr⟩⟩

theorem data_size {line : List Byte} (hlen : line.length ≤ msgInLenMax)
    (h : SendFinds env c line data) : (BitVec.ofNat 32 data.length).toInt = data.length ∧
      data.length ≤ msgInLenMax := by
  obtain ⟨a, p, b, r, q, hline, -⟩ := h
  have hle := lineTokens_length hline data (by simp [Request.tokens])
  have hmax : msgInLenMax = 1024 := rfl
  constructor
  · rw [BitVec.toInt_eq_toNat_cond, BitVec.toNat_ofNat]
    omega
  · omega

/-- In every state that any number of cores can come to and for every line that the control
connection can deliver: what `cli_process` writes into a connection's array stays in it,
and so does what the checksum is made of, exactly if the line is not a `send` that finds
a connection for more than 100 bytes. -/
theorem payloadInside_iff (hK : K.ReadsL4) {r : Rss n} {tr : List (coresMachine K r).Event}
    (hrun : Machine.Run tr c) (hlen : line.length ≤ msgInLenMax) :
    CliInside K env stale c line ↔ ∀ data, SendFinds env c line data → data.length ≤ 100 := by
  have hrep := run_cores_rep hrun
  refine Iff.trans ⟨CliInside.inside, fun h => ⟨fun _ _ => cliProcess_sends,
    fun _ hdone _ _ _ hr => cliProcess_arrays hdone hr, h⟩⟩ ?_
  constructor
  · intro h data hfinds
    obtain ⟨conn, hsends⟩ := (exists_cliSends hrep).mpr hfinds
    obtain ⟨hsize, -⟩ := data_size hlen hfinds
    by_contra hlong
    have hmem : 100 ∈ payloadWrites (BitVec.ofNat 32 data.length) := by
      unfold payloadWrites
      rw [List.mem_range, hsize]
      omega
    exact absurd ((h conn data hsends).writes 100 hmem) (by decide)
  · intro h conn data hsends
    have hfinds := (exists_cliSends hrep).mp ⟨conn, hsends⟩
    have hshort := h data hfinds
    obtain ⟨hsize, -⟩ := data_size hlen hfinds
    refine ⟨fun i hi => ?_, fun m hm => ?_⟩
    · unfold payloadWrites at hi
      rw [List.mem_range, hsize] at hi
      unfold sizeofPayload
      omega
    · exact payload_checksum hK (by omega) (by omega) hm

end

theorem rfcCksum_readsL4 : rfcCksum.ReadsL4 := by
  intro h m m' hm
  have hbytes : m.bytes (l4Len h).toNat = m'.bytes (l4Len h).toNat := by
    unfold Mem.bytes
    exact List.map_congr_left fun i hi => hm i (List.mem_range.mp hi)
  simp only [rfcCksum, hbytes]

def sendLine (data : List Byte) : List Byte := ascii "send 10.0.0.2 40000 10.0.0.1 8000 " ++ data

theorem payloadInside_iff_hello : ∃ c : TcpList 1,
    (cliSends calm noTokens c (sendLine (ascii "hello"))).isSome ∧
      (CliInside rfcCksum calm noTokens c (sendLine (ascii "hello")) ↔
      ∀ data, SendFinds calm c (sendLine (ascii "hello")) data → data.length ≤ 100) := by
  obtain ⟨tr, c, hr, hQ⟩ := Machine.exists_run (twoWorkers_init rfcCksum (rssTo 0)) [userConnect]
    (Q := fun r => (cliSends calm noTokens r.2 (sendLine (ascii "hello"))).isSome)
    (by decide +kernel)
  have hlen : (sendLine (ascii "hello")).length ≤ msgInLenMax := by decide +kernel
  exact ⟨c, hQ, payloadInside_iff rfcCksum_readsL4 hr hlen⟩

/-- 101 bytes of data, in a line of 135. -/
theorem not_payloadInside : ¬∀ (n : Nat) (K : RteCksum), K.ReadsL4 → ∀ (r : Rss n)
    (tr : List (coresMachine K r).Event) (c : TcpList n), Machine.Run tr c → ∀ (env : Env)
    (stale : Nat → List Byte) (line : List Byte), line.length ≤ msgInLenMax →
    CliInside K env stale c line := by
  intro h
  obtain ⟨tr, c, hr, hQ⟩ := Machine.exists_run (twoWorkers_init rfcCksum (rssTo 0)) [userConnect]
    (Q := fun r => (cliSends calm noTokens r.2 (sendLine (List.replicate 101 0x61))).any
      fun x => x.2.length = 101) (by decide +kernel)
  obtain ⟨⟨conn, data⟩, hsends, hlen⟩ := (Option.any_eq_true ..).mp hQ
  have hdata : data.length = 101 := of_decide_eq_true hlen
  have hinside := (h 1 rfcCksum rfcCksum_readsL4 (rssTo 0) tr c hr calm noTokens
    (sendLine (List.replicate 101 0x61)) (by decide +kernel)).inside conn data hsends
  rw [hdata] at hinside
  exact absurd (hinside.writes 100 (by decide +kernel)) (by decide)

end TcpDpdk
