import TcpDpdk.Wire

/-!
# Command lines

A command line is cut into tokens where it lies: `strtok_r` ends each token by writing
a zero over the delimiter behind it. A byte may carry more than the program looks at;
`Text` says what the program sees of it.
-/

namespace TcpDpdk

class Text (α : Type) where
  char : α → Byte
  nul : α
  char_nul : char nul = 0

export Text (char nul char_nul)

instance : Text Byte := ⟨id, 0, rfl⟩

def newline : Byte := 0x0a

/-- `PARSE_DELIMITER` -/
def parseDelimiter : List Byte := [0x20, 0x0c, 0x0a, 0x0d, 0x09, 0x0b]

def cmdMaxTokens : Nat := 256

section
variable {α : Type} [Text α]

/-- The string a pointer to `l` is for the library: what comes before the first zero. -/
def cString (l : List α) : List α := l.takeWhile fun b => char b ≠ 0

def isDelimiter (b : α) : Bool := char b ∈ parseDelimiter

structure Strtok (α : Type) where
  token : List α
  /-- the string up to the end of the token, as it is in memory now -/
  passed : List α
  rest : List α

def strtokR (s : List α) : Option (Strtok α) :=
  let token := (s.dropWhile isDelimiter).takeWhile fun b => !isDelimiter b
  let passed := s.takeWhile isDelimiter ++ token
  match token with
  | [] => none
  | _ :: _ =>
    match (s.dropWhile isDelimiter).dropWhile fun b => !isDelimiter b with
    | [] => some ⟨token, passed, []⟩
    | _ :: rest => some ⟨token, passed ++ [nul], rest⟩

/-- At most `n` calls: the tokens, and the string as it is in memory then. -/
def strtokLoop : Nat → List α → List (List α) × List α
  | 0, s => ([], s)
  | n + 1, s =>
    match strtokR s with
    | none => ([], s)
    | some t =>
      let (tokens, s) := strtokLoop n t.rest
      (t.token :: tokens, t.passed ++ s)

/-- `none` for `-E2BIG`; one more call than there may be tokens looks for another one. -/
def parseTokenizeString (s : List α) : Option (List (List α)) × List α :=
  let (tokens, s) := strtokLoop (cmdMaxTokens + 1) s
  (if tokens.length ≤ cmdMaxTokens then some tokens else none, s)

def isComment (s : List α) : Bool :=
  let s := s.map char
  s.head?.any (· ∈ ([0x21, 0x23, 0x25, 0x3b] : List Byte)) || s.take 2 = [0x2f, 0x2f] ||
    s.take 2 = [0x2d, 0x2d]

/-- What `cli_process` leaves of the line it is given. -/
def cliLine (s : List α) : List α :=
  if isComment s then s else (parseTokenizeString s).2

/-! ## The line afterwards -/

theorem strtokR_some {s : List α} {t : Strtok α} (h : strtokR s = some t) : ∃ lead,
    s = lead ++ t.token ∧ t.passed = lead ++ t.token ∧ t.rest = [] ∨
      ∃ d, s = lead ++ t.token ++ d :: t.rest ∧ t.passed = lead ++ t.token ++ [nul] := by
  have hlead := List.takeWhile_append_dropWhile (p := isDelimiter) (l := s)
  have htoken := List.takeWhile_append_dropWhile (p := fun b => !isDelimiter b)
    (l := s.dropWhile isDelimiter)
  refine ⟨s.takeWhile isDelimiter, ?_⟩
  unfold strtokR at h
  dsimp only at h
  split at h
  · cases h
  · split at h
    · rename_i htail
      cases h
      rw [htail, List.append_nil] at htoken
      rw [htoken]
      exact Or.inl ⟨hlead.symm, rfl, rfl⟩
    · rename_i d rest htail
      cases h
      rw [htail] at htoken
      refine Or.inr ⟨d, ?_, rfl⟩
      rw [List.append_assoc, htoken, hlead]

theorem strtokR_length {s : List α} {t : Strtok α} (h : strtokR s = some t) :
    t.passed.length + t.rest.length = s.length := by
  obtain ⟨lead, ⟨hs, hp, hr⟩ | ⟨d, hs, hp⟩⟩ := strtokR_some h
  · rw [hs, hp, hr]
    rfl
  · rw [hs, hp]
    simp only [List.length_append, List.length_cons, List.length_nil]
    omega

theorem strtokR_mem {s : List α} {t : Strtok α} (h : strtokR s = some t) {b : α} :
    (b ∈ t.passed → b ∈ s ∨ b = nul) ∧ (b ∈ t.rest → b ∈ s) := by
  obtain ⟨lead, ⟨hs, hp, hr⟩ | ⟨d, hs, hp⟩⟩ := strtokR_some h
  · rw [hs, hp, hr]
    exact ⟨Or.inl, fun h => nomatch h⟩
  · rw [hs, hp]
    constructor
    · intro hb
      rcases List.mem_append.mp hb with hb | hb
      · exact Or.inl (List.mem_append_left _ hb)
      · exact Or.inr (List.mem_singleton.mp hb)
    · intro hb
      exact List.mem_append_right _ (List.mem_cons_of_mem _ hb)

theorem strtokLoop_length (n : Nat) (s : List α) : (strtokLoop n s).2.length = s.length := by
  induction n generalizing s with
  | zero => rfl
  | succ n ih =>
    unfold strtokLoop
    split
    · rfl
    · rename_i t ht
      rw [← strtokR_length ht, List.length_append, ih]

theorem strtokLoop_mem (n : Nat) (s : List α) :
    ∀ b ∈ (strtokLoop n s).2, b ∈ s ∨ b = nul := by
  induction n generalizing s with
  | zero => exact fun b hb => Or.inl hb
  | succ n ih =>
    intro b hb
    unfold strtokLoop at hb
    split at hb
    · exact Or.inl hb
    · rename_i t ht
      rcases List.mem_append.mp hb with hb | hb
      · exact (strtokR_mem ht).1 hb
      · exact (ih t.rest b hb).imp_left (strtokR_mem ht).2

theorem cliLine_length (s : List α) : (cliLine s).length = s.length := by
  unfold cliLine
  split
  · rfl
  · exact strtokLoop_length (cmdMaxTokens + 1) s

theorem cliLine_mem (s : List α) : ∀ b ∈ cliLine s, b ∈ s ∨ b = nul := by
  unfold cliLine
  split
  · exact fun b hb => Or.inl hb
  · exact strtokLoop_mem (cmdMaxTokens + 1) s

/-! ## The tokens of a line -/

theorem strtokLoop_token_length (n : Nat) (s : List α) :
    ∀ t ∈ (strtokLoop n s).1, t.length ≤ s.length := by
  induction n generalizing s with
  | zero => exact fun _ h => nomatch h
  | succ n ih =>
    intro token htoken
    unfold strtokLoop at htoken
    split at htoken
    · cases htoken
    · rename_i t ht
      have hlen := strtokR_length ht
      rcases List.mem_cons.mp htoken with rfl | htoken
      · obtain ⟨lead, ⟨-, hp, -⟩ | ⟨d, -, hp⟩⟩ := strtokR_some ht
        · rw [hp, List.length_append] at hlen
          omega
        · rw [hp, List.length_append, List.length_append] at hlen
          omega
      · have := ih t.rest token htoken
        omega

def IsToken (t : List α) : Prop := t ≠ [] ∧ ∀ b ∈ t, isDelimiter b = false

theorem strtokR_span {t rest : List α} (ht : IsToken t)
    (htake : rest.takeWhile (fun b => !isDelimiter b) = [])
    (hdrop : rest.dropWhile (fun b => !isDelimiter b) = rest) :
    (t ++ rest).takeWhile isDelimiter = [] ∧ (t ++ rest).dropWhile isDelimiter = t ++ rest ∧
      (t ++ rest).takeWhile (fun b => !isDelimiter b) = t ∧
      (t ++ rest).dropWhile (fun b => !isDelimiter b) = rest := by
  obtain ⟨hne, hd⟩ := ht
  have hkeep : ∀ b ∈ t, (!isDelimiter b) = true := fun b hb => by rw [hd b hb]; rfl
  rw [List.takeWhile_append_of_pos hkeep, List.dropWhile_append_of_pos hkeep, htake, hdrop]
  cases t with
  | nil => exact absurd rfl hne
  | cons b t =>
    have hb : ¬isDelimiter b = true := by rw [hd b (List.mem_cons_self ..)]; decide
    rw [List.cons_append, List.takeWhile_cons_of_neg hb, List.dropWhile_cons_of_neg hb]
    exact ⟨rfl, rfl, List.append_nil _, rfl⟩

theorem strtokR_last {t : List α} (ht : IsToken t) : strtokR t = some ⟨t, t, []⟩ := by
  have h := strtokR_span ht (show ([] : List α).takeWhile (fun b => !isDelimiter b) = [] from rfl) rfl
  rw [List.append_nil] at h
  obtain ⟨hlead, hskip, htake, hdrop⟩ := h
  unfold strtokR
  rw [hskip, hlead, htake, hdrop]
  cases t with
  | nil => exact absurd rfl ht.1
  | cons b t => rfl

theorem strtokR_token {t rest : List α} {d : α} (ht : IsToken t) (hdel : isDelimiter d = true) :
    strtokR (t ++ d :: rest) = some ⟨t, t ++ [nul], rest⟩ := by
  have hend : (d :: rest).takeWhile (fun b => !isDelimiter b) = [] := by simp [hdel]
  obtain ⟨hlead, hskip, htake, hdrop⟩ := strtokR_span ht hend (by simp [hdel])
  unfold strtokR
  rw [hskip, hlead, htake, hdrop]
  cases t with
  | nil => exact absurd rfl ht.1
  | cons b t => rfl

/-- Tokens with one delimiter between any two. -/
def joinTokens (d : α) : List (List α) → List α
  | [] => []
  | [t] => t
  | t :: u :: ts => t ++ d :: joinTokens d (u :: ts)

theorem strtokLoop_join {d : α} (hdel : isDelimiter d = true) {n : Nat} {ts : List (List α)}
    (hts : ∀ t ∈ ts, IsToken t) (hn : ts.length ≤ n) : (strtokLoop n (joinTokens d ts)).1 = ts := by
  induction n generalizing ts with
  | zero =>
    rw [List.length_eq_zero_iff.mp (Nat.le_zero.mp hn)]
    rfl
  | succ n ih =>
    match ts, hts, hn with
    | [], _, _ => rfl
    | [t], hts, _ =>
      rw [joinTokens, strtokLoop, strtokR_last (hts t (List.mem_cons_self ..))]
      have hnil := ih (show ∀ t ∈ ([] : List (List α)), IsToken t from fun _ h => nomatch h) (Nat.zero_le n)
      exact congrArg (t :: ·) hnil
    | t :: u :: ts, hts, hn =>
      obtain ⟨ht, hts⟩ := List.forall_mem_cons.mp hts
      rw [joinTokens, strtokLoop, strtokR_token ht hdel]
      exact congrArg (t :: ·) (ih hts (Nat.succ_le_succ_iff.mp hn))

theorem parseTokenizeString_join {d : α} (hdel : isDelimiter d = true) {ts : List (List α)}
    (hts : ∀ t ∈ ts, IsToken t) (hn : ts.length ≤ cmdMaxTokens) :
    (parseTokenizeString (joinTokens d ts)).1 = some ts := by
  unfold parseTokenizeString
  dsimp only
  rw [strtokLoop_join hdel hts (Nat.le_succ_of_le hn), if_pos hn]

/-! ## The text of a line -/

def Strtok.text (t : Strtok α) : Strtok Byte :=
  ⟨t.token.map char, t.passed.map char, t.rest.map char⟩

theorem cString_text (l : List α) : cString (l.map char) = (cString l).map char :=
  List.takeWhile_map ..

theorem strtokR_text (s : List α) : strtokR (s.map char) = (strtokR s).map Strtok.text := by
  have hlead : (s.map char).takeWhile isDelimiter = (s.takeWhile isDelimiter).map char :=
    List.takeWhile_map ..
  have hdrop : (s.map char).dropWhile isDelimiter = (s.dropWhile isDelimiter).map char :=
    List.dropWhile_map ..
  have htoken : ((s.dropWhile isDelimiter).map char).takeWhile (fun b => !isDelimiter b) =
      ((s.dropWhile isDelimiter).takeWhile fun b => !isDelimiter b).map char :=
    List.takeWhile_map ..
  have htail : ((s.dropWhile isDelimiter).map char).dropWhile (fun b => !isDelimiter b) =
      ((s.dropWhile isDelimiter).dropWhile fun b => !isDelimiter b).map char :=
    List.dropWhile_map ..
  unfold strtokR
  rw [hlead, hdrop, htoken, htail]
  cases (s.dropWhile isDelimiter).takeWhile fun b => !isDelimiter b with
  | nil => rfl
  | cons b token =>
    cases (s.dropWhile isDelimiter).dropWhile fun b => !isDelimiter b with
    | nil => simp [Strtok.text]
    | cons d rest =>
      have hnul : char (nul : α) = (nul : Byte) := char_nul
      simp [Strtok.text, hnul]

theorem strtokLoop_text (n : Nat) (s : List α) :
    strtokLoop n (s.map char) =
      ((strtokLoop n s).1.map (List.map char), (strtokLoop n s).2.map char) := by
  induction n generalizing s with
  | zero => rfl
  | succ n ih =>
    unfold strtokLoop
    rw [strtokR_text]
    cases strtokR s with
    | none => rfl
    | some t =>
      simp only [Option.map_some, Strtok.text, ih, List.map_cons, List.map_append]

theorem cliLine_text (s : List α) : cliLine (s.map char) = (cliLine s).map char := by
  have hcomment : isComment (s.map char) = isComment s := by
    unfold isComment
    rw [List.map_map]
    rfl
  unfold cliLine parseTokenizeString
  rw [hcomment, strtokLoop_text]
  split <;> rfl

end

end TcpDpdk
