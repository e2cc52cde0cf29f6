import Mathlib.Data.List.TakeWhile
import TcpDpdk.Framing
import TcpDpdk.Operands

/-!
# Which lines are executed

Beside the program runs the reader of the stream, who knows the line it is in. A byte
`Stamped` with its place in the stream is told from every other one, and `wholeLines_iff`
says when what is handed over are lines of the stream. `passed_text`: without the places
it is what the program hands over.
-/

namespace TcpDpdk

/-! ## The stream -/

section
variable {α : Type} [Text α]

def IsNewline (b : α) : Prop := char b = newline

instance : DecidablePred (IsNewline (α := α)) := fun b => inferInstanceAs (Decidable (char b = newline))

/-- The line that has not ended yet, after more bytes. -/
def lineAfter (line bs : List α) : List α := (Feed.feed (Feed.piece IsNewline) line bs).1

/-- The lines that have, each with its newline. -/
def completeLines (line bs : List α) : List (List α) := (Feed.feed (Feed.piece IsNewline) line bs).2

def ReadResult.chunk : ReadResult α → List α
  | .error _ => []
  | .bytes rs _ => rs.map (·.byte)

def streamBytes (rs : List (ReadResult α)) : List α := rs.flatMap (·.chunk)

/-- The program and the line that it is in; `intact` as long as nothing has come in the way
of collecting it. -/
structure Stream (α : Type) [Text α] where
  conn : Conn α
  line : List α
  intact : Bool

def Stream.start : Stream α := ⟨.empty, [], true⟩

/-- A call of `cli_process`, made because of the newline `last`. -/
structure Passed (α : Type) where
  message : List α
  last : α
  pending : List α
  line : List α
  intact : Bool

def Stream.pass (s : Stream α) (r : Received α) (cmd : List α) : Passed α :=
  ⟨cmd, r.byte, s.conn.msgIn, s.line, s.intact⟩

def Stream.stillIntact (s : Stream α) (b : α) : Bool :=
  if char b = newline then true
  else s.intact && char b ≠ 0 && s.conn.msgIn.length < msgInLenMax

/-- `dataLoop` with an eye on the line. What is left of a read after a write failed belongs to
the stream all the same. -/
def streamLoop (s : Stream α) : List (Received α) → Stream α × List (Passed α)
  | [] => (s, [])
  | r :: rs =>
    let x := dataByte s.conn r
    let passed := x.2.1.toList.map (s.pass r)
    if x.2.2 = true then
      let y := streamLoop ⟨x.1, lineAfter s.line [r.byte], s.stillIntact r.byte⟩ rs
      (y.1, passed ++ y.2)
    else
      let line := lineAfter s.line (r.byte :: rs.map (·.byte))
      (⟨x.1, line, s.conn.msgIn.isEmpty && line.isEmpty⟩, passed)

def streamRead (s : Stream α) : ReadResult α → Stream α × List (Passed α)
  | .error _ => (s, [])
  | .bytes rs _ => streamLoop s rs

def streamReads : Stream α → List (ReadResult α) → Stream α × List (Passed α) :=
  Feed.feed streamRead

/-- What is handed over, together with the newline that makes the program do it, is a
selection of the lines of the stream. -/
def WholeLines (rs : List (ReadResult α)) : Prop :=
  ((streamReads .start rs).2.map fun p => p.message ++ [p.last]).Sublist
    ((completeLines [] (streamBytes rs)).filter fun l => l.length ≤ msgInLenMax + 1)

/-- The line was collected undisturbed; or it is empty, and what else is pending is
hidden by a zero. -/
def Passed.Clean (p : Passed α) : Prop :=
  p.intact = true ∨ p.line = [] ∧ ∃ b ∈ p.pending.head?, char b = 0

/-! ### The program is not changed by it -/

theorem streamLoop_conn (s : Stream α) (rs : List (Received α)) :
    (streamLoop s rs).1.conn = (dataLoop s.conn rs).1 ∧
      (streamLoop s rs).2.map (·.message) = (dataLoop s.conn rs).2.1 := by
  induction rs generalizing s with
  | nil => exact ⟨rfl, rfl⟩
  | cons r rs ih =>
    unfold streamLoop dataLoop
    obtain ⟨d, cmd, go⟩ := dataByte s.conn r
    have hcmd : (cmd.toList.map (s.pass r)).map (·.message) = cmd.toList := by
      rw [List.map_map]
      exact List.map_id _
    cases go with
    | true =>
      obtain ⟨hconn, hmessages⟩ := ih ⟨d, lineAfter s.line [r.byte], s.stillIntact r.byte⟩
      refine ⟨hconn, ?_⟩
      simp only [if_true, List.map_append, hcmd, hmessages]
    | false => exact ⟨rfl, hcmd⟩

theorem streamRead_conn (s : Stream α) (r : ReadResult α) :
    (streamRead s r).1.conn = (dataEventHandle s.conn r).1 ∧
      (streamRead s r).2.map (·.message) = (dataEventHandle s.conn r).2.1 := by
  cases r with
  | error again => exact ⟨rfl, rfl⟩
  | bytes rs prompt =>
    cases rs with
    | nil => exact ⟨rfl, rfl⟩
    | cons r rs => exact streamLoop_conn s (r :: rs)

theorem streamReads_conn (s : Stream α) (rs : List (ReadResult α)) :
    (streamReads s rs).1.conn = (dataReads s.conn rs).1 ∧
      (streamReads s rs).2.map (·.message) = (dataReads s.conn rs).2 := by
  induction rs generalizing s with
  | nil => exact ⟨rfl, rfl⟩
  | cons r rs ih =>
    obtain ⟨hconn, hmessages⟩ := streamRead_conn s r
    obtain ⟨hconn', hmessages'⟩ := ih (streamRead s r).1
    rw [hconn] at hconn' hmessages'
    refine ⟨hconn', ?_⟩
    show ((streamRead s r).2 ++ (streamReads (streamRead s r).1 rs).2).map (·.message) = _
    rw [List.map_append, hmessages, hmessages', dataReads]

theorem dataReads_text (c : Conn α) (rs : List (ReadResult α)) :
    (dataReads c.text (rs.map (·.map char))).2 = (dataReads c rs).2.map (List.map char) := by
  induction rs generalizing c with
  | nil => rfl
  | cons r rs ih =>
    rw [List.map_cons, dataReads, dataReads, dataEventHandle_text, List.map_append]
    show _ ++ (dataReads (dataEventHandle c r).1.text (rs.map (·.map char))).2 = _
    rw [ih]

/-! ### Lines of the stream -/

theorem lineAfter_newline (line : List α) {b : α} (h : char b = newline) : lineAfter line [b] = [] := by
  simp [lineAfter, Feed.feed, Feed.piece, IsNewline, h]

theorem lineAfter_byte (line : List α) {b : α} (h : char b ≠ newline) :
    lineAfter line [b] = line ++ [b] := by
  simp [lineAfter, Feed.feed, Feed.piece, IsNewline, h]

theorem completeLines_append (line as bs : List α) : completeLines line (as ++ bs) =
    completeLines line as ++ completeLines (lineAfter line as) bs := by
  rw [completeLines, Feed.feed_append]
  rfl

theorem completeLines_cons (line : List α) (b : α) (bs : List α) : completeLines line (b :: bs) =
    completeLines line [b] ++ completeLines (lineAfter line [b]) bs :=
  completeLines_append line [b] bs

theorem lineAfter_append (line as bs : List α) :
    lineAfter line (as ++ bs) = lineAfter (lineAfter line as) bs := by
  rw [lineAfter, Feed.feed_append]
  rfl

theorem completeLines_newline (line : List α) {b : α} (h : char b = newline) :
    completeLines line [b] = [line ++ [b]] := by
  simp [completeLines, Feed.feed, Feed.piece, IsNewline, h]

theorem pass_newline {s : Stream α} {r : Received α} {d : Conn α} {cmd : Option (List α)} {go : Bool}
    (h : Round s.conn r d cmd go) :
    ((cmd.toList.map (s.pass r)).map fun p => p.line ++ [p.last]).Sublist
      (completeLines s.line [r.byte]) := by
  have hline : ∀ cmd : List α, char r.byte = newline →
      (([cmd].map (s.pass r)).map fun p => p.line ++ [p.last]).Sublist
        (completeLines s.line [r.byte]) := fun _ hn => by
    rw [completeLines_newline s.line hn]
    exact List.Sublist.refl _
  cases h with
  | line hn => exact hline _ hn
  | unanswered hn => exact hline _ hn
  | byte _ _ => exact List.nil_sublist _
  | tooLong _ _ => exact List.nil_sublist _
  | stuck _ _ => exact List.nil_sublist _

theorem streamLoop_lines (s : Stream α) (rs : List (Received α)) :
    (streamLoop s rs).1.line = lineAfter s.line (rs.map (·.byte)) ∧
      ((streamLoop s rs).2.map fun p => p.line ++ [p.last]).Sublist
        (completeLines s.line (rs.map (·.byte))) := by
  induction rs generalizing s with
  | nil => exact ⟨rfl, List.nil_sublist _⟩
  | cons r rs ih =>
    have hpass := pass_newline (dataByte_round s.conn r)
    rw [List.map_cons, completeLines_cons]
    unfold streamLoop
    generalize dataByte s.conn r = x at hpass
    obtain ⟨d, cmd, go⟩ := x
    cases go with
    | true =>
      obtain ⟨hline, hlines⟩ := ih ⟨d, lineAfter s.line [r.byte], s.stillIntact r.byte⟩
      refine ⟨hline, ?_⟩
      simp only [if_true, List.map_append]
      exact hpass.append hlines
    | false => exact ⟨rfl, hpass.trans (List.sublist_append_left _ _)⟩

theorem streamReads_lines (s : Stream α) (rs : List (ReadResult α)) :
    (streamReads s rs).1.line = lineAfter s.line (streamBytes rs) ∧
      ((streamReads s rs).2.map fun p => p.line ++ [p.last]).Sublist
        (completeLines s.line (streamBytes rs)) := by
  induction rs generalizing s with
  | nil => exact ⟨rfl, List.nil_sublist _⟩
  | cons r rs ih =>
    have hread : (streamRead s r).1.line = lineAfter s.line r.chunk ∧
        ((streamRead s r).2.map fun p => p.line ++ [p.last]).Sublist
          (completeLines s.line r.chunk) := by
      cases r with
      | error again => exact ⟨rfl, List.nil_sublist _⟩
      | bytes rs prompt => exact streamLoop_lines s rs
    obtain ⟨hline, hlines⟩ := ih (streamRead s r).1
    rw [hread.1] at hline hlines
    rw [show streamBytes (r :: rs) = r.chunk ++ streamBytes rs from rfl, lineAfter_append,
      completeLines_append]
    refine ⟨hline, ?_⟩
    show (((streamRead s r).2 ++ (streamReads (streamRead s r).1 rs).2).map _).Sublist _
    rw [List.map_append]
    exact hread.2.append hlines

/-! ### What is pending and the line

`Broken` is what disturbs: a zero, a byte of the line that is gone, or pending bytes from
before the line. It stays until the next newline, since no byte of the stream comes twice. -/

def Broken (msgIn line : List α) : Prop :=
  (∃ b ∈ line, char b = 0) ∨ (∃ b ∈ line, b ∉ msgIn) ∨ ∃ b ∈ msgIn.head?, b ∉ line

structure Collected (s : Stream α) : Prop where
  intact : s.intact = true → s.conn.msgIn = s.line ∧ ∀ b ∈ s.line, char b ≠ 0
  broken : s.intact = false → Broken s.conn.msgIn s.line

structure Fresh (s : Stream α) (bs : List α) : Prop where
  nodup : bs.Nodup
  nul : nul ∉ bs
  pending : ∀ b ∈ bs, b ∉ s.conn.msgIn
  line : ∀ b ∈ bs, b ∉ s.line

theorem cString_self {l : List α} (h : ∀ b ∈ l, char b ≠ 0) : cString l = l :=
  List.takeWhile_eq_self_iff.mpr fun b hb => decide_eq_true (h b hb)

theorem mem_cString {l : List α} {b : α} (h : b ∈ cString l) : b ∈ l ∧ char b ≠ 0 :=
  ⟨(List.takeWhile_sublist _).mem h,
    of_decide_eq_true (List.mem_takeWhile_imp (p := fun b => decide (char b ≠ 0)) h)⟩

theorem broken_message {msgIn line : List α} (h : Broken msgIn line) :
    cString msgIn = line ↔ line = [] ∧ ∃ b ∈ msgIn.head?, char b = 0 := by
  constructor
  · intro he
    subst he
    rcases h with ⟨b, hb, hzero⟩ | ⟨b, hb, hgone⟩ | ⟨b, hhead, hb⟩
    · exact absurd hzero (mem_cString hb).2
    · exact absurd (mem_cString hb).1 hgone
    · cases msgIn with
      | nil => cases hhead
      | cons a msgIn =>
        cases hhead
        rw [cString_cons] at hb ⊢
        by_cases hzero : char b ≠ 0
        · rw [if_pos hzero] at hb
          exact absurd (List.mem_cons_self ..) hb
        · rw [if_neg hzero]
          exact ⟨rfl, b, rfl, not_not.mp hzero⟩
  · intro ⟨hline, b, hhead, hzero⟩
    cases msgIn with
    | nil => cases hhead
    | cons a msgIn =>
      cases hhead
      rw [cString_cons, if_neg (not_not.mpr hzero), hline]

theorem broken_push {msgIn line : List α} (h : Broken msgIn line) {b : α} (hgone : b ∉ msgIn)
    (hb : b ∉ line) : Broken (msgIn ++ [b]) (line ++ [b]) := by
  rcases h with ⟨x, hx, hzero⟩ | ⟨x, hx, hx'⟩ | ⟨x, hhead, hx⟩
  · exact Or.inl ⟨x, List.mem_append_left _ hx, hzero⟩
  · refine Or.inr (Or.inl ⟨x, List.mem_append_left _ hx, fun h => ?_⟩)
    rcases List.mem_append.mp h with h | h
    · exact hx' h
    · exact hb (List.mem_singleton.mp h ▸ hx)
  · refine Or.inr (Or.inr ⟨x, by rw [List.head?_append, hhead]; rfl, fun h => ?_⟩)
    rcases List.mem_append.mp h with h | h
    · exact hx h
    · exact hgone (List.mem_singleton.mp h ▸ List.mem_of_mem_head? hhead)

theorem passed_clean {s : Stream α} (hs : Collected s) {r : Received α} {d : Conn α}
    {cmd : Option (List α)} {go : Bool} (h : Round s.conn r d cmd go) :
    ∀ p ∈ cmd.toList.map (s.pass r),
      p.message.length ≤ msgInLenMax ∧ (p.message = p.line ↔ p.Clean) := by
  have hclean : (cString s.conn.msgIn = s.line ↔ (s.pass r (cString s.conn.msgIn)).Clean) := by
    unfold Passed.Clean Stream.pass
    cases hi : s.intact with
    | true =>
      obtain ⟨he, hzero⟩ := hs.intact hi
      refine iff_of_true ?_ (Or.inl rfl)
      rw [he, cString_self hzero]
    | false =>
      rw [broken_message (hs.broken hi)]
      exact (or_iff_right Bool.false_ne_true).symm
  intro p hp
  obtain ⟨cmd, hcmd, rfl⟩ := List.mem_map.mp hp
  rw [Option.mem_toList] at hcmd
  subst hcmd
  obtain rfl := round_cString h
  exact ⟨(List.takeWhile_sublist _).length_le.trans s.conn.bound, hclean⟩

theorem collected_step {s : Stream α} (hs : Collected s) {r : Received α} {bs : List α}
    (hf : Fresh s (r.byte :: bs)) {d : Conn α} {cmd : Option (List α)}
    (h : Round s.conn r d cmd true) :
    Collected ⟨d, lineAfter s.line [r.byte], s.stillIntact r.byte⟩ ∧
      Fresh ⟨d, lineAfter s.line [r.byte], s.stillIntact r.byte⟩ bs := by
  obtain ⟨hnew, hnodup⟩ := List.nodup_cons.mp hf.nodup
  have hnul := fun h => hf.nul (List.mem_cons_of_mem _ h)
  have hpending := fun b hb => hf.pending b (List.mem_cons_of_mem _ hb)
  have hline := fun b hb => hf.line b (List.mem_cons_of_mem _ hb)
  have hbyte := hf.line r.byte (List.mem_cons_self ..)
  have hgone := hf.pending r.byte (List.mem_cons_self ..)
  have hpush : ∀ l : List α, (∀ b ∈ bs, b ∉ l) → ∀ b ∈ bs, b ∉ l ++ [r.byte] := by
    intro l hl b hb h
    rcases List.mem_append.mp h with h | h
    · exact hl b hb h
    · exact hnew (List.mem_singleton.mp h ▸ hb)
  cases h with
  | line hn =>
    rw [lineAfter_newline _ hn, Stream.stillIntact, if_pos hn]
    exact ⟨⟨fun _ => ⟨rfl, fun _ h => nomatch h⟩, fun h => nomatch h⟩,
      ⟨hnodup, hnul, (fun _ _ h => nomatch h), (fun _ _ h => nomatch h)⟩⟩
  | byte hn hlen =>
    rw [lineAfter_byte _ hn, Stream.stillIntact, if_neg hn]
    refine ⟨⟨fun hi => ?_, fun hi => ?_⟩, ⟨hnodup, hnul, hpush _ hpending, hpush _ hline⟩⟩
    · simp only [hlen, Bool.and_eq_true, decide_eq_true_eq] at hi
      obtain ⟨⟨hi, hzero⟩, -⟩ := hi
      obtain ⟨he, hline⟩ := hs.intact hi
      refine ⟨congrArg (· ++ [r.byte]) he, fun b hb => ?_⟩
      rcases List.mem_append.mp hb with hb | hb
      · exact hline b hb
      · exact List.mem_singleton.mp hb ▸ hzero
    · by_cases hzero : char r.byte = 0
      · exact Or.inl ⟨r.byte, List.mem_append_right _ (List.mem_cons_self ..), hzero⟩
      · simp only [hlen, hzero, ne_eq, not_false_eq_true, decide_true, Bool.and_true] at hi
        exact broken_push (hs.broken hi) hgone hbyte
  | tooLong hn hlen =>
    rw [lineAfter_byte _ hn, Stream.stillIntact, if_neg hn]
    refine ⟨⟨fun h => ?_, fun _ => ?_⟩, ⟨hnodup, hnul, (fun _ _ h => nomatch h), hpush _ hline⟩⟩
    · simp [hlen] at h
    · exact Or.inr (Or.inl ⟨r.byte, List.mem_append_right _ (List.mem_cons_self ..),
        fun h => nomatch h⟩)

theorem handled_length (c : Conn α) : c.handled.msgIn.length = c.msgIn.length := by
  have h := congrArg List.length
    (List.takeWhile_append_dropWhile (p := fun b => char b ≠ 0) (l := c.msgIn))
  rw [List.length_append] at h
  rw [Conn.handled, List.length_append, cliLine_length]
  exact h

theorem handled_mem (c : Conn α) : ∀ b ∈ c.handled.msgIn, b ∈ c.msgIn ∨ b = nul := by
  intro b hb
  rcases List.mem_append.mp hb with hb | hb
  · exact (cliLine_mem _ b hb).imp_left (List.takeWhile_sublist _).mem
  · exact Or.inl ((List.dropWhile_sublist _).mem hb)

theorem round_stop {c d : Conn α} {r : Received α} {cmd : Option (List α)}
    (h : Round c r d cmd false) :
    d.msgIn.length = c.msgIn.length ∧ ∀ b ∈ d.msgIn, b ∈ c.msgIn ∨ b = nul := by
  cases h with
  | unanswered _ => exact ⟨handled_length c, handled_mem c⟩
  | stuck _ _ => exact ⟨rfl, fun _ hb => Or.inl hb⟩

theorem collected_stop {s : Stream α} {r : Received α} {bs more : List α}
    (hf : Fresh s ((r.byte :: bs) ++ more)) {d : Conn α} {cmd : Option (List α)}
    (h : Round s.conn r d cmd false) :
    let line := lineAfter s.line (r.byte :: bs)
    let t : Stream α := ⟨d, line, s.conn.msgIn.isEmpty && line.isEmpty⟩
    Collected t ∧ Fresh t more := by
  intro line t
  obtain ⟨hlen, hmem⟩ := round_stop h
  obtain ⟨-, hmore, hdisjoint⟩ := List.nodup_append.mp hf.nodup
  have hnew : ∀ b ∈ (r.byte :: bs) ++ more, b ∉ d.msgIn := by
    intro b hb hd
    rcases hmem b hd with hc | hnul
    · exact hf.pending b hb hc
    · exact hf.nul (hnul ▸ hb)
  refine ⟨⟨fun hi => ?_, fun hi => ?_⟩, ⟨hmore, ?_, ?_, ?_⟩⟩
  · obtain ⟨hpending, hline⟩ := Bool.and_eq_true_iff.mp hi
    have hline : line = [] := List.isEmpty_iff.mp hline
    have hd : d.msgIn = [] := List.length_eq_zero_iff.mp
      (by rw [hlen, List.isEmpty_iff.mp hpending, List.length_nil])
    show d.msgIn = line ∧ ∀ b ∈ line, char b ≠ 0
    simp [hd, hline]
  · show Broken d.msgIn line
    cases hd : d.msgIn with
    | nil =>
      have hpending : s.conn.msgIn = [] := List.length_eq_zero_iff.mp (by rw [← hlen, hd]; rfl)
      cases hline : line with
      | nil =>
        simp only [t, hpending, hline] at hi
        cases hi
      | cons b line => exact Or.inr (Or.inl ⟨b, by simp⟩)
    | cons x msgIn =>
      have hx : x ∈ d.msgIn := hd ▸ List.mem_cons_self ..
      rw [← hd]
      rcases Feed.pending_piece IsNewline s.line (r.byte :: bs) with hall | hnone
      · refine Or.inr (Or.inl ⟨r.byte, ?_, hnew _ (List.mem_cons_self ..)⟩)
        show r.byte ∈ (Feed.feed (Feed.piece IsNewline) s.line (r.byte :: bs)).1
        rw [hall]
        exact List.mem_append_right _ (List.mem_cons_self ..)
      · exact Or.inr (Or.inr ⟨x, by rw [hd]; rfl, fun hline =>
          hnew x (List.mem_append_left _ (hnone x hline)) hx⟩)
  · exact fun h => hf.nul (List.mem_append_right _ h)
  · exact fun b hb => hnew b (List.mem_append_right _ hb)
  · intro b hb hline
    rcases Feed.mem_pending hline with h | h
    · exact hf.line b (List.mem_append_right _ hb) h
    · exact hdisjoint b h b hb rfl

theorem streamLoop_collected {s : Stream α} (hs : Collected s) (rs : List (Received α))
    {more : List α} (hf : Fresh s (rs.map (·.byte) ++ more)) :
    (Collected (streamLoop s rs).1 ∧ Fresh (streamLoop s rs).1 more) ∧
      ∀ p ∈ (streamLoop s rs).2,
        p.message.length ≤ msgInLenMax ∧ (p.message = p.line ↔ p.Clean) := by
  induction rs generalizing s with
  | nil => exact ⟨⟨hs, hf⟩, fun _ h => nomatch h⟩
  | cons r rs ih =>
    have hround := dataByte_round s.conn r
    unfold streamLoop
    generalize dataByte s.conn r = x at hround
    obtain ⟨d, cmd, go⟩ := x
    have hpassed := passed_clean hs hround
    cases go with
    | true =>
      obtain ⟨hs', hf'⟩ := collected_step hs hf hround
      obtain ⟨hlast, hrest⟩ := ih hs' hf'
      refine ⟨hlast, fun p hp => ?_⟩
      rcases List.mem_append.mp hp with hp | hp
      · exact hpassed p hp
      · exact hrest p hp
    | false => exact ⟨collected_stop hf hround, hpassed⟩

theorem streamReads_collected {s : Stream α} (hs : Collected s) (rs : List (ReadResult α))
    (hf : Fresh s (streamBytes rs)) : ∀ p ∈ (streamReads s rs).2,
      p.message.length ≤ msgInLenMax ∧ (p.message = p.line ↔ p.Clean) := by
  induction rs generalizing s with
  | nil => exact fun _ h => nomatch h
  | cons r rs ih =>
    have hread : (Collected (streamRead s r).1 ∧ Fresh (streamRead s r).1 (streamBytes rs)) ∧
        ∀ p ∈ (streamRead s r).2,
          p.message.length ≤ msgInLenMax ∧ (p.message = p.line ↔ p.Clean) := by
      cases r with
      | error again => exact ⟨⟨hs, hf⟩, fun _ h => nomatch h⟩
      | bytes rs' prompt => exact streamLoop_collected hs rs' hf
    intro p hp
    rcases List.mem_append.mp hp with hp | hp
    · exact hread.2 p hp
    · exact ih hread.1.1 hread.1.2 p hp

theorem wholeLines_clean {rs : List (ReadResult α)} (hnodup : (streamBytes rs).Nodup)
    (hnul : nul ∉ streamBytes rs) :
    WholeLines rs ↔ ∀ p ∈ (streamReads .start rs).2, p.Clean := by
  have hstart : Collected (Stream.start : Stream α) :=
    ⟨fun _ => ⟨rfl, fun _ h => nomatch h⟩, fun h => nomatch h⟩
  have hpassed := streamReads_collected hstart rs
    ⟨hnodup, hnul, (fun _ _ h => nomatch h), (fun _ _ h => nomatch h)⟩
  have hlines : ((streamReads .start rs).2.map fun p => p.line ++ [p.last]).Sublist
      (completeLines [] (streamBytes rs)) := (streamReads_lines .start rs).2
  constructor
  · intro h p hp
    -- the newline that the message was handed over for ends one line only
    have hmessage : p.message ++ [p.last] ∈ completeLines [] (streamBytes rs) :=
      List.filter_sublist.mem (h.mem (List.mem_map.mpr ⟨p, hp, rfl⟩))
    have hline : p.line ++ [p.last] ∈ completeLines [] (streamBytes rs) :=
      hlines.mem (List.mem_map.mpr ⟨p, hp, rfl⟩)
    have hlast : ∀ l : List α, p.last ∈ l ++ [p.last] :=
      fun l => List.mem_append_right _ (List.mem_cons_self ..)
    have he := Feed.piece_unique hnodup hmessage hline (hlast _) (hlast _)
    exact (hpassed p hp).2.mp (List.append_cancel_right he)
  · intro h
    have he : ((streamReads .start rs).2.map fun p => p.message ++ [p.last]) =
        (streamReads .start rs).2.map fun p => p.line ++ [p.last] :=
      List.map_congr_left fun p hp => by rw [(hpassed p hp).2.mpr (h p hp)]
    have hshort : ((streamReads .start rs).2.map fun p => p.message ++ [p.last]).filter
        (fun l => l.length ≤ msgInLenMax + 1) =
          (streamReads .start rs).2.map fun p => p.message ++ [p.last] := by
      rw [List.filter_eq_self, List.forall_mem_map]
      intro p hp
      rw [List.length_append]
      exact decide_eq_true (Nat.succ_le_succ (hpassed p hp).1)
    unfold WholeLines
    rw [← hshort]
    exact List.Sublist.filter _ (he ▸ hlines)

end

/-! ## Stamped bytes -/

/-- `place` counts from 1; the zeros that the program stores come from no place. -/
structure Stamped where
  byte : Byte
  place : Nat
  deriving DecidableEq

instance : Text Stamped := ⟨(·.byte), ⟨0, 0⟩, rfl⟩

def ReadResult.stamp (n : Nat) : ReadResult Byte → ReadResult Stamped
  | .error again => .error again
  | .bytes rs prompt => .bytes ((rs.zipIdx n).map fun x => x.1.map (⟨·, x.2⟩)) prompt

def stamp : Nat → List (ReadResult Byte) → List (ReadResult Stamped)
  | _, [] => []
  | n, r :: rs => r.stamp n :: stamp (n + r.chunk.length) rs

theorem stamp_text (n : Nat) (rs : List (ReadResult Byte)) :
    (stamp n rs).map (·.map char) = rs := by
  induction rs generalizing n with
  | nil => rfl
  | cons r rs ih =>
    rw [stamp, List.map_cons, ih]
    cases r with
    | error again => rfl
    | bytes rs prompt =>
      have h : ((rs.zipIdx n).map fun x => Received.map (⟨·, x.2⟩ : Byte → Stamped) x.1).map
          (·.map char) = rs := by
        rw [List.map_map]
        exact List.zipIdx_map_fst n rs
      rw [ReadResult.stamp, ReadResult.map, h]

theorem stamp_place (n : Nat) (rs : List (ReadResult Byte)) :
    (streamBytes (stamp n rs)).map (·.place) = List.range' n (streamBytes rs).length := by
  induction rs generalizing n with
  | nil => rfl
  | cons r rs ih =>
    have hread : (r.stamp n).chunk.map (·.place) = List.range' n r.chunk.length := by
      cases r with
      | error again => rfl
      | bytes rs prompt =>
        show (((rs.zipIdx n).map _).map _).map _ = List.range' n (rs.map _).length
        rw [List.map_map, List.map_map, List.length_map, ← List.zipIdx_map_snd n rs]
        rfl
    show ((r.stamp n).chunk ++ streamBytes (stamp _ rs)).map (·.place) =
      List.range' n (r.chunk ++ streamBytes rs).length
    rw [List.map_append, hread, ih, List.length_append, List.range'_append_1]

/-- Without the stamps, this is the program. -/
theorem passed_text (rs : List (ReadResult Byte)) :
    (streamReads .start (stamp 1 rs)).2.map (fun p => p.message.map char) =
      (dataReads .empty rs).2 := by
  have htext := dataReads_text (.empty : Conn Stamped) (stamp 1 rs)
  have hmessages : _ = (dataReads Conn.empty (stamp 1 rs)).2 := (streamReads_conn .start _).2
  rw [stamp_text, ← hmessages, List.map_map] at htext
  exact htext.symm

/-- For every stream, however it is read and whatever becomes of the writes: the messages
are whole lines of the stream exactly if each line that the program gets to the end of has
been collected undisturbed. -/
theorem wholeLines_iff (rs : List (ReadResult Byte)) :
    WholeLines (stamp 1 rs) ↔ ∀ p ∈ (streamReads .start (stamp 1 rs)).2, p.Clean := by
  have hplace := stamp_place 1 rs
  apply wholeLines_clean
  · apply List.Nodup.of_map (·.place)
    rw [hplace]
    exact List.nodup_range'
  · intro h
    have hzero := List.mem_map_of_mem (f := Stamped.place) h
    rw [hplace, List.mem_range'_1] at hzero
    exact absurd hzero.1 (by decide)

/-- The reply to the first line cannot be written, and the second one is appended to it. -/
theorem not_wholeLines : ¬∀ rs : List (ReadResult Byte), WholeLines (stamp 1 rs) := by
  intro h
  have := h [.bytes ((ascii "dump").map quick ++ [⟨newline, true, false⟩]) true,
    .bytes ((ascii "exit").map quick ++ [quick newline]) true]
  revert this
  unfold WholeLines
  decide +kernel

end TcpDpdk
