import TcpDpdk.Commands
import TcpDpdk.Lib.Logged
import TcpDpdk.Operands

/-!
# The command interpreter

`cli_process` takes a line apart and answers it. What it makes the rest of the program
do is an `Action`; which entries of the array of tokens it looks at is logged, and the
null pointer behind the last token ends it there. `tokenReads_iff` says when these are
entries of the line.
-/

namespace TcpDpdk

inductive Action where
  | nothing
  | launch
  | quit
  | dump
  | onFlow (cmd : Cmd) (q : Quad)
  | connect (dip : BitVec 32) (dport sport : BitVec 16)
  | exit -- `string_to_ip` could not read an address
  | crash -- the library got a null pointer

/-- What is left in `out`, and what is done. -/
structure Command where
  out : List Byte
  action : Action

abbrev Tokens := Nat → OptionT (Logged Nat) (List Byte)

/-- Behind the tokens of the line there is the null pointer the last `strtok_r` gave, and
behind that the array is not initialised. -/
def tokenAt (tokens : List (List Byte)) (stale : Nat → List Byte) : Tokens :=
  fun k => OptionT.mk (Logged.tell k
    (if k = tokens.length then none else some (tokens.getD k (stale k))))

def msgArgTooMany : List Byte := ascii "Too many arguments for command \"\".\n"

def msgCmdUnknown (token : List Byte) : List Byte :=
  ascii "Unknown command \"" ++ token ++ ascii "\".\n"

/-! ## help -/

def cmdHelpList : String :=
  "Type 'help <command>' for details on each command.\n\n" ++
    "List of commands:\n" ++
    "\tddio\n" ++
    "\tddio-disable\n\n"

def cmdMempoolHelp : String :=
  "mempool <mempool_name>\n" ++
    "   buffer <buffer_size>\n" ++
    "   pool <pool_size>\n" ++
    "   cache <cache_size>\n" ++
    "   cpu <cpu_id>\n"

def cmdPipelineTableMeterProfileAddHelp : String :=
  "pipeline <pipeline_name> table <table_id> meter profile <meter_profile_id>\n" ++
    "   add srtcm cir <cir> cbs <cbs> ebs <ebs>\n" ++
    "   | trtcm cir <cir> pir <pir> cbs <cbs> pbs <pbs>\n"

def cmdPipelineTableMeterProfileDeleteHelp : String :=
  "pipeline <pipeline_name> table <table_id>\n" ++
    "   meter profile <meter_profile_id> delete\n"

def cmdPipelineTableRuleMeterReadHelp : String :=
  "pipeline <pipeline_name> table <table_id> rule read meter [clear]\n" ++
    "     match <match>\n"

def cmdPipelineTableRuleTtlReadHelp : String :=
  "pipeline <pipeline_name> table <table_id> rule read ttl [clear]\n" ++
    "     match <match>\n"

def cmdPipelineTableRuleTimeReadHelp : String :=
  "pipeline <pipeline_name> table <table_id> rule read time\n" ++
    "     match <match>\n"

def helpText (text : String) : List Byte := ascii "\n" ++ ascii text ++ ascii "\n"

/-- The condition of the last five texts; `&&` stops at the first difference. -/
def helpMatches (tokens : Tokens) (nTokens : Nat) (a b d : String) : OptionT (Logged Nat) Bool := do
  if nTokens = 5 then
    if (← tokens 2) = ascii a then
      if (← tokens 3) = ascii b then
        return (← tokens 4) = ascii d
      else return false
    else return false
  else return false

/-- `tokens` and `n_tokens` after the two increments it begins with. -/
def cmdHelpShifted (tokens : Tokens) (nTokens : Nat) : OptionT (Logged Nat) (List Byte) := do
  if nTokens = 0 then
    return ascii cmdHelpList
  else if (← tokens 0) = ascii "mempool" then
    return helpText cmdMempoolHelp
  else if ← helpMatches tokens nTokens "meter" "profile" "add" then
    return helpText cmdPipelineTableMeterProfileAddHelp
  else if ← helpMatches tokens nTokens "meter" "profile" "delete" then
    return helpText cmdPipelineTableMeterProfileDeleteHelp
  else if ← helpMatches tokens nTokens "rule" "meter" "read" then
    return helpText cmdPipelineTableRuleMeterReadHelp
  else if ← helpMatches tokens nTokens "rule" "ttl" "read" then
    return helpText cmdPipelineTableRuleTtlReadHelp
  else if ← helpMatches tokens nTokens "rule" "time" "read" then
    return helpText cmdPipelineTableRuleTimeReadHelp
  else return []

def cmdHelp (tokens : Tokens) (nTokens : Nat) : OptionT (Logged Nat) (List Byte) :=
  cmdHelpShifted (fun k => tokens (k + 1)) (nTokens - 1)

/-! ## cli_process -/

/-- The four fields; what is in the gaps is up to the stack. -/
def readQuad (tokens : Tokens) : OptionT (Logged Nat) (Option Quad) := do
  match stringToIp (← tokens 1) with
  | none => return none
  | some sip =>
    let sport := atoi (← tokens 2)
    match stringToIp (← tokens 3) with
    | none => return none
    | some dip =>
      let dport := atoi (← tokens 4)
      return some {
        sip := rteCpuToBe32 sip
        sport := rteCpuToBe16 (sport.setWidth 16)
        dip := rteCpuToBe32 dip
        dport := rteCpuToBe16 (dport.setWidth 16)
        pad := 0 }

def cliOnFlow (tokens : Tokens) (nTokens arity : Nat) (cmd : OptionT (Logged Nat) Cmd) :
    OptionT (Logged Nat) Command := do
  if nTokens ≠ arity then
    return ⟨ascii "we need 5 tokens!\n", .nothing⟩
  else
    match ← readQuad tokens with
    | none => return ⟨ascii "look up the flow...\n", .exit⟩
    | some q => return ⟨ascii "look up the flow...\n", .onFlow (← cmd) q⟩

/-- The only branch that does not look at `n_tokens`. -/
def cliConnect (tokens : Tokens) : OptionT (Logged Nat) Command := do
  match stringToIp (← tokens 1) with
  | none => return ⟨ascii "connect!\n", .exit⟩
  | some dip =>
    let dport := atoi (← tokens 2)
    return ⟨ascii "connect!\n", .connect (rteCpuToBe32 dip) (rteCpuToBe16 (dport.setWidth 16))
      (rteCpuToBe16 8000)⟩

def cliTokens (tokens : Tokens) (nTokens : Nat) : OptionT (Logged Nat) Command := do
  if (← tokens 0) = ascii "help" then
    return ⟨← cmdHelp tokens nTokens, .nothing⟩
  else if (← tokens 0) = ascii "ddio" then
    return ⟨[], .nothing⟩
  else if (← tokens 0) = ascii "ddio-disable" then
    return ⟨[], .nothing⟩
  else if (← tokens 0) = ascii "stop" then
    return ⟨[], .nothing⟩
  else if (← tokens 0) = ascii "start" then
    return ⟨ascii "start the tcp thread!\n", .launch⟩
  else if (← tokens 0) = ascii "configure" then
    return ⟨[], .nothing⟩
  -- the body of `adjust` is commented out with its return, so it is an unknown command
  else if (← tokens 0) = ascii "exit" then
    return ⟨[], .quit⟩
  else if (← tokens 0) = ascii "dump" then
    return ⟨ascii "dump!\n", .dump⟩
  else if (← tokens 0) = ascii "flow" then
    cliOnFlow tokens nTokens 5 (return .flow)
  else if (← tokens 0) = ascii "close" then
    cliOnFlow tokens nTokens 5 (return .close)
  else if (← tokens 0) = ascii "send" then
    cliOnFlow tokens nTokens 6 (return .send (← tokens 5))
  else if (← tokens 0) = ascii "connect" then
    cliConnect tokens
  else return ⟨msgCmdUnknown (← tokens 0), .nothing⟩

/-- `parse_tokenize_string` on a line that is not a comment. -/
def lineTokens (line : List Byte) : Option (List (List Byte)) :=
  if isComment line then some [] else (parseTokenizeString line).1

def cliCommand (stale : Nat → List Byte) (line : List Byte) : Logged Nat (Option Command) :=
  match lineTokens line with
  | none => return some ⟨msgArgTooMany, .nothing⟩
  | some tokens =>
    if tokens.length = 0 then
      return some ⟨[], .nothing⟩
    else (cliTokens (tokenAt tokens stale) tokens.length).run

def cliAction (stale : Nat → List Byte) (line : List Byte) : Action :=
  ((cliCommand stale line).value.map Command.action).getD .crash

/-! ## Which tokens are looked at -/

section
variable {tokens : Tokens} {nTokens : Nat} {P : Nat → Prop}

theorem helpMatches_all (a b d : String) (h : ∀ k, k < nTokens → (tokens k).All P) :
    (helpMatches tokens nTokens a b d).All P := by
  unfold helpMatches
  refine OptionT.all_ite (fun hn => ?_) (fun _ => OptionT.all_pure _)
  rw [OptionT.all_bind]
  refine ⟨h 2 (by omega), fun _ _ => OptionT.all_ite (fun _ => ?_) (fun _ => OptionT.all_pure _)⟩
  rw [OptionT.all_bind]
  refine ⟨h 3 (by omega), fun _ _ => OptionT.all_ite (fun _ => ?_) (fun _ => OptionT.all_pure _)⟩
  rw [OptionT.all_bind]
  exact ⟨h 4 (by omega), fun _ _ => OptionT.all_pure _⟩

theorem cmdHelpShifted_all (h : ∀ k, k < nTokens → (tokens k).All P) :
    (cmdHelpShifted tokens nTokens).All P := by
  have text : ∀ (a b d : String) (l : List Byte) (m : OptionT (Logged Nat) (List Byte)), m.All P →
      (helpMatches tokens nTokens a b d >>= fun x => if x = true then pure l else m).All P := by
    intro a b d l m hm
    rw [OptionT.all_bind]
    exact ⟨helpMatches_all a b d h, fun _ _ => OptionT.all_ite (fun _ => OptionT.all_pure _)
      fun _ => hm⟩
  unfold cmdHelpShifted
  refine OptionT.all_ite (fun _ => OptionT.all_pure _) fun hn => ?_
  rw [OptionT.all_bind]
  refine ⟨h 0 (by omega), fun _ _ => OptionT.all_ite (fun _ => OptionT.all_pure _) fun _ => ?_⟩
  exact text _ _ _ _ _ (text _ _ _ _ _ (text _ _ _ _ _ (text _ _ _ _ _ (text _ _ _ _ _
    (OptionT.all_pure _)))))

/-- `help` looks only at tokens there are, shifted by one as pointer and number both are. -/
theorem cmdHelp_all (hn : 0 < nTokens) (h : ∀ k, k < nTokens → (tokens k).All P) :
    (cmdHelp tokens nTokens).All P :=
  cmdHelpShifted_all fun k hk => h (k + 1) (by omega)

theorem readQuad_all (h : ∀ k, k < 5 → (tokens k).All P) : (readQuad tokens).All P := by
  unfold readQuad
  rw [OptionT.all_bind]
  refine ⟨h 1 (by decide), fun a _ => ?_⟩
  cases stringToIp a with
  | none => exact OptionT.all_pure _
  | some sip =>
    dsimp only
    rw [OptionT.all_bind]
    refine ⟨h 2 (by decide), fun p _ => ?_⟩
    rw [OptionT.all_bind]
    refine ⟨h 3 (by decide), fun b _ => ?_⟩
    cases stringToIp b with
    | none => exact OptionT.all_pure _
    | some dip =>
      dsimp only
      rw [OptionT.all_bind]
      exact ⟨h 4 (by decide), fun _ _ => OptionT.all_pure _⟩

theorem cliOnFlow_all {arity : Nat} {cmd : OptionT (Logged Nat) Cmd} (harity : 5 ≤ arity)
    (hcmd : nTokens = arity → cmd.All P) (h : ∀ k, k < nTokens → (tokens k).All P) :
    (cliOnFlow tokens nTokens arity cmd).All P := by
  unfold cliOnFlow
  refine OptionT.all_ite (fun _ => OptionT.all_pure _) fun hn => ?_
  rw [not_not] at hn
  rw [OptionT.all_bind]
  refine ⟨readQuad_all fun k hk => h k (by omega), fun o _ => ?_⟩
  cases o with
  | none => exact OptionT.all_pure _
  | some q =>
    dsimp only
    rw [OptionT.all_bind]
    exact ⟨hcmd hn, fun _ _ => OptionT.all_pure _⟩

theorem cliConnect_all : (cliConnect tokens).All P ↔ (tokens 1).All P ∧
    ∀ t, (tokens 1).run.value = some t → (stringToIp t).isSome = true → (tokens 2).All P := by
  unfold cliConnect
  rw [OptionT.all_bind]
  refine and_congr_right fun _ => forall_congr' fun t => forall_congr' fun _ => ?_
  cases stringToIp t with
  | none => simp
  | some dip => simp

theorem strcmp_all {t : OptionT (Logged Nat) (List Byte)} {w : List Byte}
    {m k : OptionT (Logged Nat) Command} (ht : t.All P) (hm : t.run.value = some w → m.All P)
    (hk : t.run.value ≠ some w → k.All P) : (t >>= fun x => if x = w then m else k).All P := by
  rw [OptionT.all_bind]
  refine ⟨ht, fun x hx => OptionT.all_ite (fun h => hm (h ▸ hx)) fun h => hk fun hw => h ?_⟩
  exact Option.some.inj (hx.symm.trans hw)

theorem strcmp_pure {t : OptionT (Logged Nat) (List Byte)} {w : List Byte} {c : Command}
    {k : OptionT (Logged Nat) Command} (ht : t.All P) (hk : k.All P) :
    (t >>= fun x => if x = w then pure c else k).All P :=
  strcmp_all ht (fun _ => OptionT.all_pure _) fun _ => hk

theorem cliTokens_all (hn : 0 < nTokens) (h : ∀ k, k < nTokens → (tokens k).All P)
    (hconnect : (tokens 0).run.value = some (ascii "connect") → (cliConnect tokens).All P) :
    (cliTokens tokens nTokens).All P := by
  have h0 := h 0 hn
  unfold cliTokens
  refine strcmp_all h0 (fun _ => ?_) fun _ => ?_
  · rw [OptionT.all_bind]
    exact ⟨cmdHelp_all hn h, fun _ _ => OptionT.all_pure _⟩
  -- from "ddio" to "dump" no other token is looked at
  iterate 7 apply strcmp_pure h0
  refine strcmp_all h0 (fun _ => ?_) fun _ => ?_
  · exact cliOnFlow_all (by decide) (fun _ => OptionT.all_pure _) h
  refine strcmp_all h0 (fun _ => ?_) fun _ => ?_
  · exact cliOnFlow_all (by decide) (fun _ => OptionT.all_pure _) h
  refine strcmp_all h0 (fun _ => ?_) fun _ => ?_
  · refine cliOnFlow_all (by decide) (fun h6 => ?_) h
    rw [OptionT.all_bind]
    exact ⟨h 5 (by omega), fun _ _ => OptionT.all_pure _⟩
  refine strcmp_all h0 hconnect fun _ => ?_
  rw [OptionT.all_bind]
  exact ⟨h0, fun _ _ => OptionT.all_pure _⟩

theorem cliTokens_flow (h : (tokens 0).run.value = some (ascii "flow")) :
    (cliTokens tokens nTokens).run.value =
      (cliOnFlow tokens nTokens 5 (return .flow)).run.value := by
  unfold cliTokens
  simp +decide only [OptionT.value_bind, h, Option.bind_some, if_true, if_false]

theorem cliTokens_close (h : (tokens 0).run.value = some (ascii "close")) :
    (cliTokens tokens nTokens).run.value =
      (cliOnFlow tokens nTokens 5 (return .close)).run.value := by
  unfold cliTokens
  simp +decide only [OptionT.value_bind, h, Option.bind_some, if_true, if_false]

theorem cliTokens_send (h : (tokens 0).run.value = some (ascii "send")) :
    (cliTokens tokens nTokens).run.value =
      (cliOnFlow tokens nTokens 6 (return .send (← tokens 5))).run.value := by
  unfold cliTokens
  simp +decide only [OptionT.value_bind, h, Option.bind_some, if_true, if_false]

theorem cliTokens_connect (h : (tokens 0).run.value = some (ascii "connect")) :
    (cliTokens tokens nTokens).run.value = (cliConnect tokens).run.value ∧
      ((cliTokens tokens nTokens).All P → (cliConnect tokens).All P) := by
  unfold cliTokens
  simp +decide only [OptionT.value_bind, OptionT.all_bind, h, Option.bind_some, Option.some.injEq,
    forall_eq', if_true, if_false, true_and]
  intro hall
  simp only [hall]

end

def nTokens (line : List Byte) : Nat := ((lineTokens line).getD []).length

def ShortConnect (line : List Byte) : Prop :=
  lineTokens line = some [ascii "connect"] ∨
    ∃ t, lineTokens line = some [ascii "connect", t] ∧ (stringToIp t).isSome = true

/-- For every line and whatever the array held before: every token the interpreter looks
at is one of the line, exactly if the line is not a `connect` without an address or
without a port. -/
theorem tokenReads_iff (stale : Nat → List Byte) (line : List Byte) :
    (∀ k ∈ (cliCommand stale line).log, k < nTokens line) ↔ ¬ShortConnect line := by
  show (cliCommand stale line).All (· < nTokens line) ↔ _
  unfold cliCommand nTokens ShortConnect
  cases lineTokens line with
  | none => simp
  | some tokens =>
    have hget : ∀ k, k < tokens.length → (tokenAt tokens stale k).All (· < tokens.length) :=
      fun k hk => (Logged.all_tell _ _).mpr hk
    simp only [Option.getD_some, Option.some.injEq]
    by_cases h0 : tokens.length = 0
    · rw [if_pos h0, List.length_eq_zero_iff.mp h0]
      simp
    · rw [if_neg h0]
      show (cliTokens (tokenAt tokens stale) tokens.length).All (· < tokens.length) ↔ _
      by_cases hconnect : (tokenAt tokens stale 0).run.value = some (ascii "connect")
      · have hall : (cliTokens (tokenAt tokens stale) tokens.length).All (· < tokens.length) ↔
            (cliConnect (tokenAt tokens stale)).All (· < tokens.length) :=
          ⟨(cliTokens_connect hconnect).2, fun h => cliTokens_all (by omega) hget fun _ => h⟩
        have hlog : ∀ k, (tokenAt tokens stale k).All (· < tokens.length) ↔ k < tokens.length :=
          fun k => Logged.all_tell _ _
        rw [hall, cliConnect_all, hlog, hlog]
        match tokens, hconnect with
        | [], hconnect => exact absurd rfl h0
        | [w], hconnect =>
          obtain rfl : w = ascii "connect" := Option.some.inj hconnect
          simp
        | [w, t], hconnect =>
          obtain rfl : w = ascii "connect" := Option.some.inj hconnect
          simp [tokenAt]
        | w :: t :: u :: rest, _ => simp
      · refine iff_of_true (cliTokens_all (by omega) hget fun h => absurd h hconnect) ?_
        rintro (rfl | ⟨t, rfl, -⟩)
        · exact hconnect rfl
        · exact hconnect rfl

def noTokens : Nat → List Byte := fun _ => []

/-- `connect` alone looks at the second token. -/
theorem not_tokenReads : ¬∀ (stale : Nat → List Byte) (line : List Byte),
    ∀ k ∈ (cliCommand stale line).log, k < nTokens line := by
  intro h
  exact absurd (h noTokens (ascii "connect")) (by decide +kernel)

end TcpDpdk
