import TcpDpdk.ControlPanel
import TcpDpdk.Lib.Feed
import TcpDpdk.Lib.Logged

/-!
# Lines from a stream

`read` cuts what a client sends anywhere; `msg_in` carries what there is of a line from one
call of `data_event_handle` to the next. Here it is memory that is written to, which
`Refines` the list of pending bytes; `framing_split` says that the cuts do not matter.
-/

namespace TcpDpdk

/-! ## The buffer as memory -/

/-- `msg_in` and `msg_in_len` -/
structure MsgIn (α : Type) where
  mem : Nat → α
  len : Nat

section
variable {α : Type} [Text α]

/-- As `calloc` gives it. -/
def MsgIn.start : MsgIn α := ⟨fun _ => nul, 0⟩

def MsgIn.bytes (m : MsgIn α) : List α := (List.range m.len).map m.mem

def MsgIn.store (m : MsgIn α) (i : Nat) (b : α) : Logged Nat (MsgIn α) :=
  Logged.tell i { m with mem := Function.update m.mem i b }

/-- The string at `msg_in`, once there is a zero at `msg_in_len`. -/
def MsgIn.string (m : MsgIn α) : List α := cString ((List.range (m.len + 1)).map m.mem)

/-- What `cli_process` leaves in place of the string: of these stores `strtok_r` makes
those that change a delimiter into a zero. -/
def MsgIn.edit (m : MsgIn α) : Logged Nat (MsgIn α) :=
  let s := cliLine m.string
  ⟨{ m with mem := fun i => s[i]?.getD (m.mem i) }, List.range s.length⟩

def msgByte (m : MsgIn α) (r : Received α) : Logged Nat (MsgIn α × Option (List α) × Bool) := do
  if char r.byte = newline then
    let m ← m.store m.len nul
    let cmd := m.string
    let m ← m.edit
    if r.answers = true ∧ r.write = false then
      return (m, some cmd, false)
    else
      return ({ m with len := 0 }, some cmd, true)
  else if m.len < msgInLenMax then
    let m ← m.store m.len r.byte
    return ({ m with len := m.len + 1 }, none, true)
  else if r.write = true then
    return ({ m with len := 0 }, none, true)
  else
    return (m, none, false)

def msgLoop : MsgIn α → List (Received α) → Logged Nat (MsgIn α × List (List α) × Bool)
  | m, [] => return (m, [], true)
  | m, r :: rs => do
    let x ← msgByte m r
    if x.2.2 = true then
      let y ← msgLoop x.1 rs
      return (y.1, x.2.1.toList ++ y.2.1, y.2.2)
    else
      return (x.1, x.2.1.toList, false)

def msgEventHandle (m : MsgIn α) : ReadResult α → Logged Nat (MsgIn α × List (List α) × Int)
  | .error again => return (m, [], if again then 0 else -1)
  | .bytes [] _ => return (m, [], 0)
  | .bytes (r :: rs) prompt => do
    let x ← msgLoop m (r :: rs)
    return (x.1, x.2.1, if x.2.2 && prompt then 0 else -1)

def msgReads : MsgIn α → List (ReadResult α) → Logged Nat (MsgIn α × List (List α))
  | m, [] => return (m, [])
  | m, r :: rs => do
    let x ← msgEventHandle m r
    let y ← msgReads x.1 rs
    return (y.1, x.2.1 ++ y.2)

def dataReads : Conn α → List (ReadResult α) → Conn α × List (List α)
  | c, [] => (c, [])
  | c, r :: rs =>
    let x := dataEventHandle c r
    let y := dataReads x.1 rs
    (y.1, x.2.1 ++ y.2)

/-! ### It refines the list of pending bytes -/

def SameBytes (m : MsgIn α) (c : Conn α) : Prop := m.bytes = c.msgIn

/-- Stores inside `msg_in`, and what the list of pending bytes says comes of it. -/
structure Refines {β γ : Type} (m : Logged Nat (MsgIn α × β)) (c : Conn α × γ) (R : β → γ → Prop) :
    Prop where
  inside : m.All (· ≤ msgInLenMax)
  bytes : SameBytes m.value.1 c.1
  rest : R m.value.2 c.2

section
variable {m : MsgIn α} {c : Conn α}

theorem SameBytes.len (h : SameBytes m c) : m.len = c.msgIn.length := by
  rw [← h, MsgIn.bytes, List.length_map, List.length_range]

theorem SameBytes.le (h : SameBytes m c) : m.len ≤ msgInLenMax := h.len ▸ c.bound

omit [Text α] in
theorem bytes_store (m : MsgIn α) (b : α) :
    (List.range m.len).map (Function.update m.mem m.len b) = m.bytes := by
  refine List.map_congr_left fun i hi => ?_
  exact Function.update_of_ne (Nat.ne_of_lt (List.mem_range.mp hi)) _ _

omit [Text α] in
theorem bytes_push (m : MsgIn α) (b : α) :
    (List.range (m.len + 1)).map (Function.update m.mem m.len b) = m.bytes ++ [b] := by
  rw [List.range_succ, List.map_append, bytes_store, List.map_singleton, Function.update_self]

theorem cString_nul (l : List α) : cString (l ++ [nul]) = cString l := by
  induction l with
  | nil =>
    rw [List.nil_append, cString_cons, if_neg (not_not.mpr char_nul)]
    rfl
  | cons a l ih => rw [List.cons_append, cString_cons, cString_cons, ih]

theorem string_store (h : SameBytes m c) :
    (m.store m.len nul).value.string = cString c.msgIn := by
  show cString ((List.range (m.len + 1)).map (Function.update m.mem m.len nul)) = _
  rw [bytes_push, h, cString_nul]

omit [Text α] in
theorem bytes_overwrite {mem : Nat → α} {len : Nat} {s : List α} (hs : s.length ≤ len) :
    (List.range len).map (fun i => s[i]?.getD (mem i)) =
      s ++ ((List.range len).map mem).drop s.length := by
  apply List.ext_getElem
  · simp only [List.length_map, List.length_range, List.length_append, List.length_drop]
    omega
  · intro i h₁ h₂
    by_cases hi : i < s.length
    · simp [hi]
    · simp only [List.getElem_map, List.getElem_range, List.getElem_append_right (Nat.not_lt.mp hi),
        List.getElem_drop, List.getElem?_eq_none (Nat.not_lt.mp hi), Option.getD_none]
      congr 1
      omega

theorem length_cliLine_cString (l : List α) : (cliLine (cString l)).length ≤ l.length := by
  rw [cliLine_length]
  exact (List.takeWhile_sublist _).length_le

theorem bytes_handled (h : SameBytes m c) :
    SameBytes ((m.store m.len nul).value.edit).value c.handled := by
  have hlen : (cliLine (cString c.msgIn)).length ≤ m.len := h.len ▸ length_cliLine_cString _
  have hdrop : c.msgIn.drop (cString c.msgIn).length = c.msgIn.dropWhile fun b => char b ≠ 0 := by
    have hdrop : (cString c.msgIn ++ c.msgIn.dropWhile fun b => char b ≠ 0).drop
        (cString c.msgIn).length = c.msgIn.dropWhile fun b => char b ≠ 0 := List.drop_left
    unfold cString at hdrop ⊢
    rwa [List.takeWhile_append_dropWhile] at hdrop
  show (List.range m.len).map (fun i => (cliLine (m.store m.len nul).value.string)[i]?.getD
    (Function.update m.mem m.len nul i)) = _
  rw [string_store h, bytes_overwrite hlen, bytes_store, h, cliLine_length, hdrop]
  rfl

theorem edit_inside (h : SameBytes m c) :
    ((m.store m.len nul).value.edit).All (· ≤ msgInLenMax) := by
  intro i hi
  change i ∈ List.range (cliLine (m.store m.len nul).value.string).length at hi
  rw [string_store h, List.mem_range] at hi
  have hle := length_cliLine_cString c.msgIn
  have hbound := c.bound
  omega

theorem msgByte_refines (h : SameBytes m c) (r : Received α) :
    Refines (msgByte m r) (dataByte c r) (· = ·) := by
  have hlen := h.len
  unfold msgByte dataByte
  by_cases hn : char r.byte = newline
  · rw [if_pos hn, dif_pos hn]
    by_cases hw : r.answers = true ∧ r.write = false
    · simp only [if_pos hw]
      refine ⟨?_, bytes_handled h, ?_⟩
      · rw [Logged.all_bind, Logged.all_bind]
        exact ⟨(Logged.all_tell _ _).mpr h.le, edit_inside h, Logged.all_pure _⟩
      · exact congrArg (fun l => (some l, false)) (string_store h)
    · simp only [if_neg hw]
      refine ⟨?_, rfl, ?_⟩
      · rw [Logged.all_bind, Logged.all_bind]
        exact ⟨(Logged.all_tell _ _).mpr h.le, edit_inside h, Logged.all_pure _⟩
      · exact congrArg (fun l => (some l, true)) (string_store h)
  · rw [if_neg hn, dif_neg hn]
    by_cases hlt : m.len < msgInLenMax
    · rw [if_pos hlt, dif_pos (hlen ▸ hlt)]
      refine ⟨?_, ?_, rfl⟩
      · rw [Logged.all_bind]
        exact ⟨(Logged.all_tell _ _).mpr h.le, Logged.all_pure _⟩
      · show (List.range (m.len + 1)).map (Function.update m.mem m.len r.byte) = c.msgIn ++ [r.byte]
        rw [bytes_push, h]
    · rw [if_neg hlt, dif_neg (hlen ▸ hlt)]
      by_cases hw : r.write = true
      · rw [if_pos hw, if_pos hw]
        exact ⟨Logged.all_pure _, rfl, rfl⟩
      · rw [if_neg hw, if_neg hw]
        exact ⟨Logged.all_pure _, h, rfl⟩

theorem msgLoop_refines (h : SameBytes m c) (rs : List (Received α)) :
    Refines (msgLoop m rs) (dataLoop c rs) (· = ·) := by
  induction rs generalizing m c with
  | nil => exact ⟨Logged.all_pure _, h, rfl⟩
  | cons r rs ih =>
    obtain ⟨hin, hbytes, hrest⟩ := msgByte_refines h r
    unfold msgLoop dataLoop
    generalize dataByte c r = x at hbytes hrest ⊢
    obtain ⟨d, cmd, go⟩ := x
    change (msgByte m r).value.2 = (cmd, go) at hrest
    change SameBytes (msgByte m r).value.1 d at hbytes
    cases go with
    | true =>
      obtain ⟨hin', hbytes', hrest'⟩ := ih hbytes
      refine ⟨?_, ?_, ?_⟩
      · rw [Logged.all_bind, hrest, if_pos rfl, Logged.all_bind]
        exact ⟨hin, hin', Logged.all_pure _⟩
      · simp only [Logged.value_bind, hrest, if_true]
        exact hbytes'
      · simp only [Logged.value_bind, hrest, if_true]
        show (_ ++ (msgLoop _ rs).value.2.1, (msgLoop _ rs).value.2.2) = _
        rw [hrest']
    | false =>
      refine ⟨?_, ?_, ?_⟩
      · rw [Logged.all_bind, hrest, if_neg Bool.false_ne_true]
        exact ⟨hin, Logged.all_pure _⟩
      · simp only [Logged.value_bind, hrest, Bool.false_eq_true, if_false]
        exact hbytes
      · simp only [Logged.value_bind, hrest, Bool.false_eq_true, if_false]
        rfl

theorem msgEventHandle_refines (h : SameBytes m c) (r : ReadResult α) :
    Refines (msgEventHandle m r) (dataEventHandle c r) (· = ·) := by
  cases r with
  | error again => exact ⟨Logged.all_pure _, h, rfl⟩
  | bytes rs prompt =>
    cases rs with
    | nil => exact ⟨Logged.all_pure _, h, rfl⟩
    | cons r rs =>
      obtain ⟨hin, hbytes, hrest⟩ := msgLoop_refines h (r :: rs)
      refine ⟨?_, hbytes, ?_⟩
      · show Logged.All _ (_ >>= _)
        rw [Logged.all_bind]
        exact ⟨hin, Logged.all_pure _⟩
      · show ((msgLoop m (r :: rs)).value.2.1, if (msgLoop m (r :: rs)).value.2.2 && prompt
          then (0 : Int) else -1) = _
        rw [hrest]
        rfl

/-- The program with its buffer does what the model with the list of pending bytes does,
and stores nothing outside the buffer, however it is called. -/
theorem msgReads_refines (h : SameBytes m c) (rs : List (ReadResult α)) :
    Refines (msgReads m rs) (dataReads c rs) (· = ·) := by
  induction rs generalizing m c with
  | nil => exact ⟨Logged.all_pure _, h, rfl⟩
  | cons r rs ih =>
    obtain ⟨hin, hbytes, hrest⟩ := msgEventHandle_refines h r
    obtain ⟨hin', hbytes', hrest'⟩ := ih hbytes
    unfold msgReads dataReads
    refine ⟨?_, hbytes', ?_⟩
    · rw [Logged.all_bind, Logged.all_bind]
      exact ⟨hin, hin', Logged.all_pure _⟩
    · show (msgEventHandle m r).value.2.1 ++ (msgReads (msgEventHandle m r).value.1 rs).value.2 = _
      rw [hrest, hrest']

end

/-! ## Where the stream is cut -/

def frameByte (c : Conn α) (b : α) : Conn α × List (List α) :=
  let x := dataByte c ⟨b, false, true⟩
  (x.1, x.2.1.toList)

theorem dataByte_frame (c : Conn α) {r : Received α} (hw : r.write = true) :
    (dataByte c r).1 = (frameByte c r.byte).1 ∧
      (dataByte c r).2.1.toList = (frameByte c r.byte).2 ∧ (dataByte c r).2.2 = true := by
  unfold frameByte dataByte
  by_cases hn : char r.byte = newline
  · simp [hn, hw]
  · by_cases hlt : c.msgIn.length < msgInLenMax
    · simp [hn, hlt]
    · simp [hn, hlt, hw]

theorem dataLoop_frame (c : Conn α) {rs : List (Received α)} (hw : ∀ r ∈ rs, r.write = true) :
    (dataLoop c rs).1 = (Feed.feed frameByte c (rs.map (·.byte))).1 ∧
      (dataLoop c rs).2.1 = (Feed.feed frameByte c (rs.map (·.byte))).2 := by
  induction rs generalizing c with
  | nil => exact ⟨rfl, rfl⟩
  | cons r rs ih =>
    obtain ⟨hr, hrs⟩ := List.forall_mem_cons.mp hw
    obtain ⟨hconn, hcmd, hgo⟩ := dataByte_frame c hr
    obtain ⟨hconn', hcmd'⟩ := ih (frameByte c r.byte).1 hrs
    rw [List.map_cons, Feed.feed, dataLoop]
    generalize dataByte c r = x at hconn hcmd hgo ⊢
    obtain ⟨d, cmd, go⟩ := x
    subst hgo
    change d = _ at hconn
    change cmd.toList = _ at hcmd
    subst hconn
    simp only [hcmd, hconn', hcmd', and_self]

/-- A call of `read` for each chunk, and every write succeeds. -/
def prompted (rs : List (Received α)) : ReadResult α := .bytes rs true

theorem prompted_frame (c : Conn α) {rs : List (Received α)} (hw : ∀ r ∈ rs, r.write = true) :
    (dataEventHandle c (prompted rs)).1 = (Feed.feed frameByte c (rs.map (·.byte))).1 ∧
      (dataEventHandle c (prompted rs)).2.1 = (Feed.feed frameByte c (rs.map (·.byte))).2 := by
  have h := dataLoop_frame c hw
  cases rs with
  | nil => exact h
  | cons r rs => exact h

theorem dataReads_frame (c : Conn α) {cs : List (List (Received α))}
    (hw : ∀ r ∈ cs.flatten, r.write = true) :
    dataReads c (cs.map prompted) = Feed.feed frameByte c (cs.flatten.map (·.byte)) := by
  rw [List.map_flatten, ← Feed.feedChunks_eq]
  induction cs generalizing c with
  | nil => rfl
  | cons rs cs ih =>
    rw [List.flatten_cons, List.forall_mem_append] at hw
    obtain ⟨hconn, hcmd⟩ := prompted_frame c hw.1
    rw [List.map_cons, List.map_cons, dataReads, Feed.feedChunks, hconn, hcmd, ih _ hw.2]

theorem sameBytes_start : SameBytes (α := α) .start .empty := rfl

/-- However the stream is cut into reads: the same messages are handed over, the same bytes
stay behind, and nothing is stored outside of `msg_in`. -/
theorem framing_split (a b : List (List (Received α))) (ha : ∀ r ∈ a.flatten, r.write = true)
    (hb : ∀ r ∈ b.flatten, r.write = true)
    (hstream : a.flatten.map (·.byte) = b.flatten.map (·.byte)) :
    let x := msgReads .start (a.map prompted)
    let y := msgReads .start (b.map prompted)
    x.value.2 = y.value.2 ∧ x.value.1.bytes = y.value.1.bytes ∧ x.value.1.len = y.value.1.len ∧
      x.All (· ≤ msgInLenMax) ∧ y.All (· ≤ msgInLenMax) := by
  intro x y
  obtain ⟨hxin, hxbytes, hxrest⟩ := msgReads_refines sameBytes_start (a.map prompted)
  obtain ⟨hyin, hybytes, hyrest⟩ := msgReads_refines sameBytes_start (b.map prompted)
  have hreads : dataReads Conn.empty (a.map prompted) = dataReads .empty (b.map prompted) := by
    rw [dataReads_frame _ ha, dataReads_frame _ hb, hstream]
  have hmessages : x.value.2 = y.value.2 := by
    rw [hxrest, hyrest, hreads]
  have hlen : x.value.1.len = y.value.1.len := by
    rw [hxbytes.len, hybytes.len, hreads]
  have hpending : x.value.1.bytes = y.value.1.bytes := by
    rw [hxbytes, hybytes, hreads]
  exact ⟨hmessages, hpending, hlen, hxin, hyin⟩

end

theorem framing_split_two :
    let x := msgReads (α := Byte) .start
      ([[quick 0x61], [quick newline, quick 0x62]].map prompted)
    let y := msgReads .start ([[quick 0x61, quick newline, quick 0x62]].map prompted)
    x.value.2 = y.value.2 ∧ x.value.1.bytes = y.value.1.bytes ∧ x.value.1.len = y.value.1.len ∧
      x.All (· ≤ msgInLenMax) ∧ y.All (· ≤ msgInLenMax) :=
  framing_split [[quick 0x61], [quick newline, quick 0x62]] [[quick 0x61, quick newline, quick 0x62]]
    (by decide) (by decide) rfl

end TcpDpdk
