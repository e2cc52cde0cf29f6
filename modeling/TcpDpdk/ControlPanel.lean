import TcpDpdk.Lib.Machine
import TcpDpdk.Parser

/-!
# The control panel

All control clients share one `struct conn`, and in it one line that is not complete
yet. Which client a byte came from the program does not know; `Marked` bytes carry it
along, and `ownCommands_iff` says when it makes no difference. `erase_step` says that
without the marks this is the program.
-/

namespace TcpDpdk

def msgInLenMax : Nat := 1024

/-- Of `struct conn`, `msg_in` up to `msg_in_len`. -/
@[ext] structure Conn (α : Type) [Text α] where
  msgIn : List α
  bound : msgIn.length ≤ msgInLenMax
  line : ∀ b ∈ msgIn, char b ≠ newline

/-- A byte that was read, and what happens if it is the one the program answers to: does
the handler leave something in `msg_out`, and does the write succeed? -/
structure Received (α : Type) where
  byte : α
  answers : Bool
  write : Bool

inductive ReadResult (α : Type) where
  | error (again : Bool)
  | bytes (l : List (Received α)) (prompt : Bool)

section
variable {α : Type} [Text α]

def Conn.empty : Conn α := ⟨[], Nat.zero_le _, fun _ h => nomatch h⟩

def Conn.push (c : Conn α) (b : α) (hb : char b ≠ newline) (h : c.msgIn.length < msgInLenMax) :
    Conn α where
  msgIn := c.msgIn ++ [b]
  bound := by
    rw [List.length_append]
    exact h
  line x hx := by
    rcases List.mem_append.mp hx with hx | hx
    · exact c.line x hx
    · exact List.mem_singleton.mp hx ▸ hb

/-- After `msg_handle`, which gets the bytes up to the first zero. -/
def Conn.handled (c : Conn α) : Conn α where
  msgIn := cliLine (cString c.msgIn) ++ c.msgIn.dropWhile fun b => char b ≠ 0
  bound := by
    have h := congrArg List.length
      (List.takeWhile_append_dropWhile (p := fun b => char b ≠ 0) (l := c.msgIn))
    rw [List.length_append] at h ⊢
    rw [cliLine_length]
    exact h ▸ c.bound
  line x hx := by
    rcases List.mem_append.mp hx with hx | hx
    · rcases cliLine_mem _ x hx with hx | rfl
      · exact c.line x ((List.takeWhile_sublist _).mem hx)
      · rw [char_nul]
        decide
    · exact c.line x ((List.dropWhile_sublist _).mem hx)

/-- One round of the loop, with the command it hands over; `false` if it is the last
one because a write failed. -/
def dataByte (c : Conn α) (r : Received α) : Conn α × Option (List α) × Bool :=
  if hn : char r.byte = newline then
    if r.answers = true ∧ r.write = false then (c.handled, some (cString c.msgIn), false)
    else (.empty, some (cString c.msgIn), true)
  else if h : c.msgIn.length < msgInLenMax then (c.push r.byte hn h, none, true)
  else if r.write = true then (.empty, none, true)
  else (c, none, false)

def dataLoop : Conn α → List (Received α) → Conn α × List (List α) × Bool
  | c, [] => (c, [], true)
  | c, r :: rs =>
    match dataByte c r with
    | (c, cmd, false) => (c, cmd.toList, false)
    | (c, cmd, true) =>
      let (c, cmds, ok) := dataLoop c rs
      (c, cmd.toList ++ cmds, ok)

def dataEventHandle (c : Conn α) : ReadResult α → Conn α × List (List α) × Int
  | .error again => (c, [], if again then 0 else -1)
  | .bytes [] _ => (c, [], 0)
  | .bytes (r :: rs) prompt =>
    let x := dataLoop c (r :: rs)
    (x.1, x.2.1, if x.2.2 && prompt then 0 else -1)

end

/-! ## Clients -/

/-- A client is a connection accepted, not the number of its descriptor, which is given
out again. -/
abbrev Client := Nat

structure Panel (α : Type) [Text α] where
  conn : Conn α
  /-- `fd_client_group` -/
  clients : List Client
  accepted : Nat

def Panel.start {α : Type} [Text α] : Panel α := ⟨.empty, [], 0⟩

/-- What `epoll_wait` reports; with a control event, whether `epoll_ctl` and `close`
succeed. -/
structure PanelEvent where
  client : Client
  input : Option (ReadResult Byte)
  hangup : Option (Bool × Bool)

inductive PanelTurn where
  /-- Is there a client, and does what is done with it succeed? -/
  | pollForConn (client ok : Bool)
  | pollForMsg (ev : PanelEvent)

structure Call (α : Type) where
  client : Client
  msgIn : List α

structure PanelOut (α : Type) where
  calls : List (Call α)
  status : Int

def controlEventHandle (clients : List Client) (f : Client) (del close : Bool) :
    List Client × Int :=
  if del then (clients.erase f, if close then 0 else -1) else (clients, -1)

/-- How a byte read from a client is written down. -/
class Source (α : Type) extends Text α where
  mark : Client → Byte → α
  char_mark : ∀ f b, char (mark f b) = b

export Source (mark char_mark)

instance : Source Byte := ⟨fun _ b => b, fun _ _ => rfl⟩

def Received.map {α β : Type} (g : α → β) (r : Received α) : Received β :=
  { r with byte := g r.byte }

def ReadResult.map {α β : Type} (g : α → β) : ReadResult α → ReadResult β
  | .error again => .error again
  | .bytes rs prompt => .bytes (rs.map (·.map g)) prompt

section
variable {α : Type} [Source α]

def connPollForConn (s : Panel α) (client ok : Bool) : Panel α × PanelOut α :=
  if client then
    ({ s with
      clients := if ok then s.accepted :: s.clients else s.clients
      accepted := s.accepted + 1 }, ⟨[], if ok then 0 else -1⟩)
  else (s, ⟨[], if ok then 0 else -1⟩)

def inputHandle (c : Conn α) (f : Client) : Option (ReadResult Byte) → Conn α × List (List α) × Int
  | none => (c, [], 0)
  | some r => dataEventHandle c (r.map (mark f))

def hangupHandle (clients : List Client) (f : Client) : Option (Bool × Bool) → List Client × Int
  | none => (clients, 0)
  | some (del, close) => controlEventHandle clients f del close

/-- Only clients of the group are reported. -/
def connPollForMsg (s : Panel α) (ev : PanelEvent) : Panel α × PanelOut α :=
  if ev.client ∈ s.clients then
    let data := inputHandle s.conn ev.client ev.input
    let control := hangupHandle s.clients ev.client ev.hangup
    ({ s with conn := data.1, clients := control.1 },
      ⟨data.2.1.map fun cmd => ⟨ev.client, cmd⟩,
        if data.2.2 ≠ 0 ∨ control.2 ≠ 0 then -1 else 0⟩)
  else (s, ⟨[], 0⟩)

def panelStep (s : Panel α) : PanelTurn → Panel α × PanelOut α
  | .pollForConn client ok => connPollForConn s client ok
  | .pollForMsg ev => connPollForMsg s ev

variable (α) in
def panelMachine : Machine (Panel α) PanelTurn (PanelOut α) where
  init s := s = .start
  step s t := some (panelStep s t)

end

/-! ## What the handler is given -/

section
variable {α : Type} [Text α]

theorem cString_cons (a : α) (l : List α) :
    cString (a :: l) = if char a ≠ 0 then a :: cString l else [] := by
  unfold cString
  rw [List.takeWhile_cons]
  simp

theorem cString_append (l : List α) (b : α) :
    cString (l ++ [b]) = cString l ∨ cString (l ++ [b]) = cString l ++ [b] := by
  induction l with
  | nil =>
    rw [List.nil_append, cString_cons]
    by_cases h : char b ≠ 0
    · rw [if_pos h]
      exact Or.inr rfl
    · rw [if_neg h]
      exact Or.inl rfl
  | cons a l ih =>
    rw [List.cons_append, cString_cons, cString_cons]
    by_cases h : char a ≠ 0
    · rw [if_pos h, if_pos h]
      exact ih.imp (congrArg (a :: ·)) (congrArg (a :: ·))
    · rw [if_neg h, if_neg h]
      exact Or.inl rfl

inductive Round (c : Conn α) (r : Received α) : Conn α → Option (List α) → Bool → Prop
  | line : char r.byte = newline → Round c r .empty (some (cString c.msgIn)) true
  | unanswered : char r.byte = newline → Round c r c.handled (some (cString c.msgIn)) false
  | byte (hn : char r.byte ≠ newline) (h : c.msgIn.length < msgInLenMax) :
      Round c r (c.push r.byte hn h) none true
  | tooLong : char r.byte ≠ newline → ¬c.msgIn.length < msgInLenMax → Round c r .empty none true
  | stuck : char r.byte ≠ newline → ¬c.msgIn.length < msgInLenMax → Round c r c none false

theorem dataByte_round (c : Conn α) (r : Received α) :
    Round c r (dataByte c r).1 (dataByte c r).2.1 (dataByte c r).2.2 := by
  unfold dataByte
  by_cases hn : char r.byte = newline
  · rw [dif_pos hn]
    split
    · exact .unanswered hn
    · exact .line hn
  · rw [dif_neg hn]
    split
    · exact .byte hn ‹_›
    · split
      · exact .tooLong hn ‹_›
      · exact .stuck hn ‹_›

theorem dataLoop_cons (c : Conn α) (r : Received α) (rs : List (Received α)) :
    ∃ d cmd go, Round c r d cmd go ∧
      (dataLoop c (r :: rs)).2.1 = cmd.toList ++ if go then (dataLoop d rs).2.1 else [] := by
  refine ⟨_, _, _, dataByte_round c r, ?_⟩
  rw [dataLoop]
  split
  · rename_i h
    rw [h]
    exact (List.append_nil _).symm
  · rename_i h
    rw [h]
    rfl

theorem round_cString {c d : Conn α} {r : Received α} {cmd : List α} {go : Bool}
    (h : Round c r d (some cmd) go) : cmd = cString c.msgIn := by
  cases h with
  | line _ => rfl
  | unanswered _ => rfl

theorem dataLoop_cString {c : Conn α} {rs : List (Received α)} :
    ∀ cmd ∈ (dataLoop c rs).2.1, ∃ d : Conn α, cmd = cString d.msgIn := by
  induction rs generalizing c with
  | nil => exact fun _ h => nomatch h
  | cons r rs ih =>
    obtain ⟨d, o, go, hround, he⟩ := dataLoop_cons c r rs
    intro cmd hcmd
    rw [he] at hcmd
    rcases List.mem_append.mp hcmd with h | h
    · rw [Option.mem_toList] at h
      subst h
      exact ⟨c, round_cString hround⟩
    · cases go with
      | true => exact ih cmd h
      | false => cases h

def Completes (c : Conn α) (rs : List (Received α)) : Prop :=
  ∃ pre r post, rs = pre ++ r :: post ∧ char r.byte = newline ∧
    (∀ x ∈ pre, char x.byte ≠ newline) ∧ c.msgIn.length + pre.length ≤ msgInLenMax

section
variable {P : α → Prop} {c : Conn α} {rs : List (Received α)}

theorem dataLoop_own (hrs : ∀ r ∈ rs, P r.byte) (hc : ∀ b ∈ cString c.msgIn, P b) :
    ∀ cmd ∈ (dataLoop c rs).2.1, ∀ b ∈ cmd, P b := by
  induction rs generalizing c with
  | nil => exact fun _ h => nomatch h
  | cons r rs ih =>
    obtain ⟨hr, hrs⟩ := List.forall_mem_cons.mp hrs
    obtain ⟨d, o, go, hround, he⟩ := dataLoop_cons c r rs
    have hd : go = true → ∀ b ∈ cString d.msgIn, P b := by
      intro hgo b hb
      cases hround with
      | line _ => cases hb
      | unanswered _ => cases hgo
      | byte hn h =>
        rcases cString_append c.msgIn r.byte with he | he
        · exact hc b (he ▸ hb)
        · rcases List.mem_append.mp (he ▸ hb) with hb | hb
          · exact hc b hb
          · exact List.mem_singleton.mp hb ▸ hr
      | tooLong _ _ => cases hb
      | stuck _ _ => cases hgo
    intro cmd hcmd
    rw [he] at hcmd
    rcases List.mem_append.mp hcmd with h | h
    · rw [Option.mem_toList] at h
      subst h
      rw [round_cString hround]
      exact hc
    · cases go with
      | true => exact ih hrs (hd rfl) cmd h
      | false => cases h

theorem completes_newline {r : Received α} (hn : char r.byte = newline) : Completes c (r :: rs) :=
  ⟨[], r, rs, rfl, hn, (fun _ h => nomatch h), c.bound⟩

theorem completes_cons {r : Received α} (hn : char r.byte ≠ newline) :
    Completes c (r :: rs) ↔ ∃ pre x post, rs = pre ++ x :: post ∧ char x.byte = newline ∧
      (∀ x ∈ pre, char x.byte ≠ newline) ∧ c.msgIn.length + (pre.length + 1) ≤ msgInLenMax := by
  constructor
  · intro ⟨pre, x, post, he, hx, hpre, hlen⟩
    cases pre with
    | nil =>
      cases he
      exact absurd hx hn
    | cons y pre =>
      cases he
      exact ⟨pre, x, post, rfl, hx, (List.forall_mem_cons.mp hpre).2, hlen⟩
  · intro ⟨pre, x, post, he, hx, hpre, hlen⟩
    subst he
    exact ⟨r :: pre, x, post, rfl, hx, List.forall_mem_cons.mpr ⟨hn, hpre⟩, hlen⟩

theorem completes_push {r : Received α} (hn : char r.byte ≠ newline)
    (h : c.msgIn.length < msgInLenMax) :
    Completes c (r :: rs) ↔ Completes (c.push r.byte hn h) rs := by
  rw [completes_cons hn]
  have hlen : (c.push r.byte hn h).msgIn.length = c.msgIn.length + 1 := List.length_append
  unfold Completes
  rw [hlen]
  simp only [Nat.add_assoc, Nat.add_comm 1]

theorem not_completes_full {r : Received α} (hn : char r.byte ≠ newline)
    (h : ¬c.msgIn.length < msgInLenMax) : ¬Completes c (r :: rs) := by
  rw [completes_cons hn]
  intro ⟨pre, _, _, _, _, _, hlen⟩
  omega

/-- With a byte from elsewhere in the line, what is handed over is all right only if
the line is not. -/
theorem dataLoop_foreign (hrs : ∀ r ∈ rs, P r.byte) (hc : ∃ b ∈ cString c.msgIn, ¬P b) :
    (∀ cmd ∈ (dataLoop c rs).2.1, ∀ b ∈ cmd, P b) ↔ ¬Completes c rs := by
  induction rs generalizing c with
  | nil =>
    refine iff_of_true (fun _ h => nomatch h) ?_
    intro ⟨pre, _, _, he, _⟩
    cases pre <;> cases he
  | cons r rs ih =>
    obtain ⟨-, hrs'⟩ := List.forall_mem_cons.mp hrs
    obtain ⟨d, o, go, hround, he⟩ := dataLoop_cons c r rs
    obtain ⟨b, hb, hPb⟩ := hc
    have handed : cString c.msgIn ∈ (dataLoop c (r :: rs)).2.1 → char r.byte = newline →
        ((∀ cmd ∈ (dataLoop c (r :: rs)).2.1, ∀ b ∈ cmd, P b) ↔ ¬Completes c (r :: rs)) :=
      fun hmem hn => iff_of_false (fun h => hPb (h _ hmem b hb)) fun h => h (completes_newline hn)
    cases hround with
    | line hn => exact handed (by rw [he]; exact List.mem_cons_self ..) hn
    | unanswered hn => exact handed (by rw [he]; exact List.mem_cons_self ..) hn
    | byte hn h =>
      rw [he, completes_push hn h]
      refine ih hrs' ⟨b, ?_, hPb⟩
      rcases cString_append c.msgIn r.byte with hs | hs
      · exact hs ▸ hb
      · exact hs ▸ List.mem_append_left _ hb
    | tooLong hn h =>
      rw [he]
      exact iff_of_true (dataLoop_own hrs' fun _ h => nomatch h) (not_completes_full hn h)
    | stuck hn h =>
      rw [he]
      exact iff_of_true (fun _ h => nomatch h) (not_completes_full hn h)

end

end

/-! ## The marks are not looked at -/

section
variable {α : Type} [Text α]

def Conn.text (c : Conn α) : Conn Byte where
  msgIn := c.msgIn.map char
  bound := by
    rw [List.length_map]
    exact c.bound
  line b hb := by
    obtain ⟨a, ha, rfl⟩ := List.mem_map.mp hb
    exact c.line a ha

theorem handled_text (c : Conn α) : c.text.handled = c.handled.text := by
  have htail : (c.msgIn.map char).dropWhile (fun b => char b ≠ 0) =
      (c.msgIn.dropWhile fun b => char b ≠ 0).map char := List.dropWhile_map ..
  apply Conn.ext
  unfold Conn.handled Conn.text
  dsimp only
  rw [cString_text, cliLine_text, htail, List.map_append]

theorem dataByte_text (c : Conn α) (r : Received α) :
    dataByte c.text (r.map char) =
      ((dataByte c r).1.text, (dataByte c r).2.1.map (List.map char), (dataByte c r).2.2) := by
  have hchar : char (Received.map char r).byte = char r.byte := rfl
  have hlen : c.text.msgIn.length = c.msgIn.length := List.length_map ..
  have hcmd : cString c.text.msgIn = (cString c.msgIn).map char := cString_text c.msgIn
  unfold dataByte
  by_cases hn : char r.byte = newline
  · rw [dif_pos hn, dif_pos (hchar.trans hn), hcmd, handled_text]
    show (if r.answers = true ∧ r.write = false then _ else _) = _
    split <;> rfl
  · rw [dif_neg hn, dif_neg (hchar ▸ hn)]
    by_cases h : c.msgIn.length < msgInLenMax
    · rw [dif_pos h, dif_pos (hlen ▸ h)]
      have hpush : c.text.push (Received.map char r).byte (hchar ▸ hn) (hlen ▸ h) =
          (c.push r.byte hn h).text := by
        apply Conn.ext
        show c.msgIn.map char ++ [char r.byte] = (c.msgIn ++ [r.byte]).map char
        rw [List.map_append]
        rfl
      rw [hpush]
      rfl
    · rw [dif_neg h, dif_neg (hlen ▸ h)]
      show (if r.write = true then _ else _) = _
      split <;> rfl

theorem dataLoop_text (c : Conn α) (rs : List (Received α)) :
    dataLoop c.text (rs.map (·.map char)) =
      ((dataLoop c rs).1.text, (dataLoop c rs).2.1.map (List.map char), (dataLoop c rs).2.2) := by
  induction rs generalizing c with
  | nil => rfl
  | cons r rs ih =>
    rw [List.map_cons]
    unfold dataLoop
    rw [dataByte_text]
    obtain ⟨d, cmd, go⟩ := dataByte c r
    cases go with
    | false => cases cmd <;> rfl
    | true =>
      dsimp only
      rw [ih]
      cases cmd <;> rfl

theorem dataEventHandle_text (c : Conn α) (r : ReadResult α) :
    dataEventHandle c.text (r.map char) = ((dataEventHandle c r).1.text,
      (dataEventHandle c r).2.1.map (List.map char), (dataEventHandle c r).2.2) := by
  cases r with
  | error again => rfl
  | bytes rs prompt =>
    cases rs with
    | nil => rfl
    | cons r rs =>
      show (let x := dataLoop c.text ((r :: rs).map (·.map char))
        (x.1, x.2.1, if x.2.2 && prompt then (0 : Int) else -1)) = _
      rw [dataLoop_text]
      rfl

end

section
variable {α : Type} [Source α]

def Panel.text (s : Panel α) : Panel Byte := ⟨s.conn.text, s.clients, s.accepted⟩

def PanelOut.text (out : PanelOut α) : PanelOut Byte :=
  ⟨out.calls.map fun call => ⟨call.client, call.msgIn.map char⟩, out.status⟩

variable (α) in
theorem mark_text (r : ReadResult Byte) (f : Client) :
    (r.map (mark f : Byte → α)).map char = r.map (mark f) := by
  cases r with
  | error again => rfl
  | bytes rs prompt =>
    unfold ReadResult.map
    dsimp only
    rw [List.map_map]
    congr 2
    funext x
    show { x with byte := char (mark f x.byte : α) } = x
    rw [char_mark]

theorem erase_step (s : Panel α) (t : PanelTurn) :
    panelStep s.text t = ((panelStep s t).1.text, (panelStep s t).2.text) := by
  cases t with
  | pollForConn client ok =>
    cases client <;> rfl
  | pollForMsg ev =>
    have hinput : inputHandle s.text.conn ev.client ev.input =
        ((inputHandle s.conn ev.client ev.input).1.text,
          (inputHandle s.conn ev.client ev.input).2.1.map (List.map char),
          (inputHandle s.conn ev.client ev.input).2.2) := by
      cases ev.input with
      | none => rfl
      | some r =>
        show dataEventHandle s.conn.text (r.map (mark ev.client)) = _
        rw [← mark_text α]
        exact dataEventHandle_text ..
    show connPollForMsg s.text ev = ((connPollForMsg s ev).1.text, (connPollForMsg s ev).2.text)
    unfold connPollForMsg
    rw [hinput]
    by_cases hm : ev.client ∈ s.clients
    · rw [if_pos hm, if_pos (show ev.client ∈ s.text.clients from hm)]
      unfold PanelOut.text
      simp only [List.map_map]
      rfl
    · rw [if_neg hm, if_neg (show ev.client ∉ s.text.clients from hm)]
      rfl

end

/-! ## Marked bytes -/

structure Marked where
  byte : Byte
  client : Option Client
  deriving DecidableEq

instance : Source Marked where
  char b := b.byte
  nul := ⟨0, none⟩
  char_nul := rfl
  mark f b := ⟨b, some f⟩
  char_mark _ _ := rfl

def OwnCommands (e : (panelMachine Marked).Event) : Prop :=
  ∀ call ∈ e.out.calls, ∀ b ∈ call.msgIn, b.client = some call.client ∧ b.byte ≠ newline

/-- What is read from a client completes a line that another client began. -/
def CompletesForeign (e : (panelMachine Marked).Event) : Prop :=
  ∃ ev rs prompt, e.input = .pollForMsg ev ∧ ev.client ∈ e.pre.clients ∧
    ev.input = some (.bytes rs prompt) ∧
    (∃ b ∈ cString e.pre.conn.msgIn, b.client ≠ some ev.client) ∧
    Completes e.pre.conn (rs.map (·.map (mark ev.client)))

theorem dataEventHandle_bytes {α : Type} [Text α] (c : Conn α) (rs : List (Received α))
    (prompt : Bool) : (dataEventHandle c (.bytes rs prompt)).2.1 = (dataLoop c rs).2.1 := by
  cases rs <;> rfl

theorem dataLoop_line {c : Conn Marked} {rs : List (Received Marked)} :
    ∀ cmd ∈ (dataLoop c rs).2.1, ∀ b ∈ cmd, b.byte ≠ newline := by
  intro cmd hcmd b hb
  obtain ⟨d, rfl⟩ := dataLoop_cString cmd hcmd
  exact d.line b ((List.takeWhile_sublist _).mem hb)

theorem read_own (c : Conn Marked) (f : Client) (rs : List (Received Byte)) :
    (∀ cmd ∈ (dataLoop c (rs.map (·.map (mark f)))).2.1, ∀ b ∈ cmd, b.client = some f) ↔
      ¬((∃ b ∈ cString c.msgIn, b.client ≠ some f) ∧ Completes c (rs.map (·.map (mark f)))) := by
  have hrs : ∀ r ∈ rs.map (·.map (mark f)), Marked.client (Received.byte r) = some f := by
    intro r hr
    obtain ⟨x, -, rfl⟩ := List.mem_map.mp hr
    rfl
  by_cases hc : ∃ b ∈ cString c.msgIn, b.client ≠ some f
  · rw [dataLoop_foreign hrs hc]
    exact not_congr (and_iff_right hc).symm
  · refine iff_of_true (dataLoop_own hrs fun b hb => ?_) fun h => hc h.1
    by_contra hne
    exact hc ⟨b, hb, hne⟩

theorem poll_own (s : Panel Marked) (ev : PanelEvent) :
    (∀ call ∈ (connPollForMsg s ev).2.calls, ∀ b ∈ call.msgIn,
      b.client = some call.client ∧ b.byte ≠ newline) ↔
    ¬∃ rs prompt, ev.client ∈ s.clients ∧ ev.input = some (.bytes rs prompt) ∧
      (∃ b ∈ cString s.conn.msgIn, b.client ≠ some ev.client) ∧
      Completes s.conn (rs.map (·.map (mark ev.client))) := by
  unfold connPollForMsg
  by_cases hm : ev.client ∈ s.clients
  · rw [if_pos hm]
    dsimp only
    cases ev.input with
    | none => exact iff_of_true (fun _ h => nomatch h) fun ⟨_, _, _, h, _⟩ => nomatch h
    | some r =>
      cases r with
      | error again => exact iff_of_true (fun _ h => nomatch h) fun ⟨_, _, _, h, _⟩ => nomatch h
      | bytes rs prompt =>
        unfold inputHandle ReadResult.map
        dsimp only
        rw [dataEventHandle_bytes, List.forall_mem_map]
        have hown := read_own s.conn ev.client rs
        constructor
        · intro h ⟨rs', prompt', _, he, hforeign⟩
          cases he
          exact hown.mp (fun cmd hcmd b hb => (h cmd hcmd b hb).1) hforeign
        · intro h cmd hcmd b hb
          refine ⟨hown.mpr (fun hforeign => ?_) cmd hcmd b hb, dataLoop_line cmd hcmd b hb⟩
          exact h ⟨rs, prompt, hm, rfl, hforeign⟩
  · rw [if_neg hm]
    exact iff_of_true (fun _ h => nomatch h) fun ⟨_, _, h, _⟩ => hm h

theorem event_own (e : (panelMachine Marked).Event) : OwnCommands e ↔ ¬CompletesForeign e := by
  have hout : e.out = (panelStep e.pre e.input).2 := by
    have h := congrArg Prod.snd (Option.some.inj e.fired)
    exact h.symm
  unfold OwnCommands CompletesForeign
  rw [hout]
  cases e.input with
  | pollForConn client ok =>
    have hcalls : (connPollForConn e.pre client ok).2.calls = [] := by
      unfold connPollForConn
      split <;> rfl
    refine iff_of_true ?_ fun ⟨_, _, _, h, _⟩ => nomatch h
    show ∀ call ∈ (connPollForConn e.pre client ok).2.calls, _
    rw [hcalls]
    exact List.forall_mem_nil _
  | pollForMsg ev =>
    show (∀ call ∈ (connPollForMsg e.pre ev).2.calls, _) ↔ _
    rw [poll_own]
    refine not_congr ⟨?_, ?_⟩
    · intro ⟨rs, prompt, hforeign⟩
      exact ⟨ev, rs, prompt, rfl, hforeign⟩
    · intro ⟨ev', rs, prompt, he, hforeign⟩
      cases he
      exact ⟨rs, prompt, hforeign⟩

/-- For any number of clients and every interleaving of what they send and of their
comings and goings: every command is a line of the client it is executed for, exactly
if no client is read, up to the end of a line, while a line of another one is pending. -/
theorem ownCommands_iff {tr : List (panelMachine Marked).Event} {s : Panel Marked}
    (h : Machine.Run tr s) : (∀ e ∈ tr, OwnCommands e) ↔ ∀ e ∈ tr, ¬CompletesForeign e := by
  rw [← Machine.meets_mem, ← Machine.meets_mem]
  exact Machine.Run.meets_iff (fun _ e _ => event_own e) h

/-! ### Two clients -/

def quick (b : Byte) : Received Byte := ⟨b, true, true⟩

def types (f : Client) (text : List Byte) (hangup : Option (Bool × Bool)) : PanelTurn :=
  .pollForMsg ⟨f, some (.bytes (text.map quick) true), hangup⟩

theorem panel_init : (panelMachine Marked).init .start := rfl

theorem ownCommands_iff_lines : ∃ (tr : List (panelMachine Marked).Event) (s : Panel Marked),
    Machine.Run tr s ∧ (tr.flatMap (·.out.calls)).length = 2 ∧
      ((∀ e ∈ tr, OwnCommands e) ↔ ∀ e ∈ tr, ¬CompletesForeign e) := by
  obtain ⟨tr, s, hr, hlen⟩ := Machine.exists_run panel_init
    [.pollForConn true true, .pollForConn true true, types 0 [0x61, newline] none,
      types 1 [0x62, newline] none]
    (Q := fun r => (r.1.flatMap (·.out.calls)).length = 2) (by decide +kernel)
  exact ⟨tr, s, hr, of_decide_eq_true hlen, ownCommands_iff hr⟩

/-- The first client leaves in the middle of a line. -/
theorem not_ownCommands : ¬∀ (tr : List (panelMachine Marked).Event) (s : Panel Marked),
    Machine.Run tr s → ∀ e ∈ tr, OwnCommands e := by
  intro h
  obtain ⟨tr, s, hr, e, he, hQ⟩ := Machine.exists_event panel_init
    [.pollForConn true true, .pollForConn true true, types 0 [0x61, 0x62] (some (true, true)),
      types 1 [0x63, newline] none]
    (Q := fun e => e.out.calls.any fun call => call.msgIn.any fun b => b.client ≠ some call.client)
    (by decide +kernel)
  obtain ⟨call, hcall, hb⟩ := List.any_eq_true.mp hQ
  obtain ⟨b, hb, hne⟩ := List.any_eq_true.mp hb
  exact of_decide_eq_true hne (h tr s hr e he call hcall b hb).1

end TcpDpdk
