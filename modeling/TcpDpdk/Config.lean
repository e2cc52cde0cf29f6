import Mathlib.Data.Int.Init
import TcpDpdk.Lib.Feed
import TcpDpdk.Lib.Logged
import TcpDpdk.Operands

/-!
# Configuration

The file is an argument vector, one argument a line. `rte_eal_init` takes the arguments
in front, `parse_args` the keys behind them. `configSafe_iff` says for which files every
copy fits, nothing behind the vector is read and no worker is set up with a field that
was not given.
-/

namespace TcpDpdk

/-! ## The program -/

abbrev Arg := List Byte

inductive Key where
  | srcIp
  | srcMac
  | dstMac
  deriving DecidableEq

def Key.name : Key → Arg
  | .srcIp => ascii "src_ip"
  | .srcMac => ascii "src_mac"
  | .dstMac => ascii "dst_mac"

/-- Of `struct config` what is read from the file; `none` as `malloc` left it. -/
structure Config where
  srcIp : Option Arg
  srcMac : Option Arg
  dstMac : Option Arg
  deriving DecidableEq

namespace Config

def malloc : Config := ⟨none, none, none⟩

def get (c : Config) : Key → Option Arg
  | .srcIp => c.srcIp
  | .srcMac => c.srcMac
  | .dstMac => c.dstMac

def set (c : Config) (v : Arg) : Key → Config
  | .srcIp => { c with srcIp := some v }
  | .srcMac => { c with srcMac := some v }
  | .dstMac => { c with dstMac := some v }

theorem get_set (c : Config) (v : Arg) (k j : Key) :
    (c.set v k).get j = if j = k then some v else c.get j := by
  cases k <;> cases j <;> rfl

end Config

def entrySize : Nat := 100

def fieldSize : Nat := 50

/-- Where the program trusts the file: an index into `argv`, a string copied into an entry
of `argv`, one copied into a field. -/
inductive Access where
  | index (i argc : Int)
  | entry (s : Arg)
  | field (k : Key) (s : Arg)
  deriving DecidableEq

def Access.Inside : Access → Prop
  | .index i argc => 0 ≤ i ∧ i < argc
  | .entry s => s.length + 1 ≤ entrySize
  | .field _ s => s.length + 1 ≤ fieldSize

/-- The value of an `int` that counted up to `n`. -/
def asInt (n : Nat) : Int := Int.bmod n (2 ^ 32)

/-- The results of `getline` until the end of the file. -/
def getlines (text : List Byte) : List (List Byte) :=
  let x := Feed.feed (Feed.piece (· = newline)) [] text
  if x.1 = [] then x.2 else x.2 ++ [x.1]

def lineArg (line : List Byte) : Arg :=
  let s := cString line
  if s.getLast? = some newline then s.dropLast else s

def fileArgs (text : List Byte) : List Arg := (getlines text).map lineArg

/-- The loop that fills `argv`. What happens after an access that is not `Inside` is of no
account. -/
def fillArgv (argc : Int) : Nat → List Arg → Logged Access Unit
  | _, [] => return ()
  | i, s :: rest => do
    Logged.tell (.index (asInt i) argc) ()
    Logged.tell (.entry s) ()
    fillArgv argc (i + 1) rest

def printArgv (argc : Int) : Logged Access Unit :=
  ⟨(), (List.range argc.toNat).map fun i : Nat => .index i argc⟩

/-- `rte_eal_init`: the vector as it is left behind, and how many of its entries were parsed.
Entries are moved and repeated, but never written. -/
structure Eal where
  init : List Arg → Option (List Arg × Nat)
  length : ∀ {l l' n}, init l = some (l', n) → l'.length = l.length
  parsed : ∀ {l l' n}, init l = some (l', n) → n ≤ l.length
  entries : ∀ {l l' n}, init l = some (l', n) → ∀ a ∈ l', a ∈ l

def findKey (a : Arg) : Option Key :=
  if a = Key.srcIp.name then some .srcIp
  else if a = Key.srcMac.name then some .srcMac
  else if a = Key.dstMac.name then some .dstMac
  else none

/-- The loop from `i` on, with the entries that are left; `none` if the value of a key is
looked for behind the last one. -/
def parseLoop (argv₀ : Arg) (argc : Nat) : Nat → Config → List Arg → Logged Access (Option Config)
  | _, c, [] => return some c
  | i, c, a :: rest => do
    Logged.tell (.index i argc) ()
    if a = ascii "--" then
      Logged.tell (.index 0 argc) ()
      Logged.tell (.entry argv₀) ()
      return some c
    else if a = ascii "ddio" then
      parseLoop argv₀ argc (i + 1) c rest
    else
      match findKey a with
      | some k => do
        Logged.tell (.index (i + 1) argc) ()
        match rest with
        | [] => return none
        | v :: rest => do
          Logged.tell (.field k v) ()
          parseLoop argv₀ argc (i + 2) (c.set v k) rest
      | none => parseLoop argv₀ argc (i + 1) c rest

/-- What `parse_args` returns is not looked at. -/
def parseArgs (c : Config) : List Arg → Logged Access (Option Config)
  | [] => return some c
  | argv₀ :: rest => parseLoop argv₀ (rest.length + 1) 1 c rest

/-- With the arguments that `rte_eal_init` leaves, and the numbers of ports and of worker
cores: the calls of `initialize_tcp`. -/
def initWorkers (ports workers : Nat) (l : List Arg) : Logged Access (List Config) := do
  match ← parseArgs .malloc l with
  | none => return []
  | some c => return if ports = 0 then [] else List.replicate workers c

def configInit (eal : Eal) (ports workers : Nat) (file : Option (List Byte)) :
    Logged Access (List Config) :=
  match file with
  | none => return []
  | some text => do
    let argv := fileArgs text
    fillArgv (asInt argv.length) 0 argv
    printArgv (asInt argv.length)
    match eal.init argv with
    | none => return []
    | some (argv, ret) => initWorkers ports workers (argv.drop ret)

/-! ## What the file says -/

/-- Keys and their values up to "--"; a key at the end has none. -/
def settings : List Arg → List (Key × Option Arg)
  | [] => []
  | a :: rest =>
    if a = ascii "--" then []
    else
      match findKey a with
      | some k =>
        match rest with
        | [] => [(k, none)]
        | v :: rest => (k, some v) :: settings rest
      | none => settings rest

def Config.Complete (c : Config) (args : List Arg) : Prop := ∀ k, ∃ v ∈ args, c.get k = some v

/-- Every access is inside, and every worker is set up with fields from the file. -/
structure ConfigSafe (m : Logged Access (List Config)) (args : List Arg) : Prop where
  inside : m.All Access.Inside
  complete : ∀ c ∈ m.value, c.Complete args

structure GoodSettings (workers : Prop) (l : List (Key × Option Arg)) : Prop where
  values : ∀ x ∈ l, ∃ v, x.2 = some v ∧ v.length < fieldSize
  keys : workers → ∀ k, ∃ v, (k, some v) ∈ l

structure GoodConfig (eal : Eal) (ports workers : Nat) (args : List Arg) : Prop where
  count : args.length < 2 ^ 31
  short : ∀ a ∈ args, a.length < entrySize
  settings : ∀ argv ret, eal.init args = some (argv, ret) →
    GoodSettings (0 < ports ∧ 0 < workers) (settings (argv.drop (ret + 1)))

/-! ## The vector -/

theorem asInt_eq {n : Nat} (h : n < 2 ^ 31) : asInt n = n := by
  unfold asInt
  rw [Int.bmod_eq_of_le] <;> omega

theorem asInt_lt (n : Nat) : asInt n < 2 ^ 31 := by
  unfold asInt
  have := @Int.bmod_lt n (2 ^ 32) (by omega)
  omega

theorem indices_inside (n : Nat) :
    (∀ j < n, 0 ≤ asInt j ∧ asInt j < asInt n) ↔ n < 2 ^ 31 := by
  constructor
  · intro h
    by_contra hn
    have hlt := asInt_lt n
    by_cases hpos : 0 < asInt n
    · have hself : asInt (asInt n).toNat = asInt n := by
        rw [asInt_eq (by omega)]
        omega
      have hinside := (h (asInt n).toNat (by omega)).2
      omega
    · have hinside := h 0 (by omega)
      omega
  · intro hn j hj
    rw [asInt_eq hn, asInt_eq (hj.trans hn)]
    omega

theorem fillArgv_inside (argc : Int) (i : Nat) (l : List Arg) :
    (fillArgv argc i l).All Access.Inside ↔
      (∀ j < l.length, 0 ≤ asInt (i + j) ∧ asInt (i + j) < argc) ∧
        ∀ a ∈ l, a.length < entrySize := by
  induction l generalizing i with
  | nil => exact iff_of_true (Logged.all_pure _) ⟨(fun _ h => nomatch h), fun _ h => nomatch h⟩
  | cons a l ih =>
    unfold fillArgv
    rw [Logged.all_bind, Logged.all_bind, Logged.all_tell, Logged.all_tell, ih,
      List.forall_mem_cons]
    have hindex : (∀ j < (a :: l).length, 0 ≤ asInt (i + j) ∧ asInt (i + j) < argc) ↔
        (0 ≤ asInt i ∧ asInt i < argc) ∧
          ∀ j < l.length, 0 ≤ asInt (i + 1 + j) ∧ asInt (i + 1 + j) < argc := by
      rw [List.length_cons, Nat.forall_lt_succ_left]
      simp only [Nat.add_zero, Nat.add_assoc, Nat.add_comm 1]
    rw [hindex]
    constructor
    · intro ⟨hi, ha, hrest, hl⟩
      exact ⟨⟨hi, hrest⟩, ha, hl⟩
    · intro ⟨⟨hi, hrest⟩, ha, hl⟩
      exact ⟨hi, ha, hrest, hl⟩

theorem printArgv_inside (argc : Int) : (printArgv argc).All Access.Inside := by
  intro e he
  obtain ⟨i, hi, rfl⟩ := List.mem_map.mp he
  rw [List.mem_range] at hi
  show 0 ≤ (i : Int) ∧ (i : Int) < argc
  omega

/-! ## The keys -/

theorem findKey_ne_ddio {a : Arg} {k : Key} (h : findKey a = some k) : a ≠ ascii "ddio" := by
  have hddio : findKey (ascii "ddio") = none := by decide
  rintro rfl
  simp [hddio] at h

theorem index_inside {i argc : Nat} (h : i < argc) : Access.Inside (.index i argc) := by
  show 0 ≤ (i : Int) ∧ (i : Int) < argc
  omega

section
variable {argv₀ a : Arg} {argc i : Nat} {c : Config} {k : Key} {rest : List Arg}

theorem parseLoop_last (ha : a ≠ ascii "--") (hk : findKey a = some k) :
    parseLoop argv₀ argc i c [a] = (do
      Logged.tell (.index i argc) ()
      Logged.tell (.index (i + 1) argc) ()
      return none) := by
  rw [parseLoop, if_neg ha, if_neg (findKey_ne_ddio hk), hk]

theorem parseLoop_key (ha : a ≠ ascii "--") (hk : findKey a = some k) (v : Arg) :
    parseLoop argv₀ argc i c (a :: v :: rest) = (do
      Logged.tell (.index i argc) ()
      Logged.tell (.index (i + 1) argc) ()
      Logged.tell (.field k v) ()
      parseLoop argv₀ argc (i + 2) (c.set v k) rest) := by
  rw [parseLoop, if_neg ha, if_neg (findKey_ne_ddio hk), hk]

theorem parseLoop_skip (ha : a ≠ ascii "--") (hk : findKey a = none) :
    parseLoop argv₀ argc i c (a :: rest) = (do
      Logged.tell (.index i argc) ()
      parseLoop argv₀ argc (i + 1) c rest) := by
  rw [parseLoop, if_neg ha, hk]
  split <;> rfl

theorem parseLoop_inside (h₀ : argv₀.length < entrySize) (i : Nat) (c : Config) (rest : List Arg) :
    (parseLoop argv₀ (i + rest.length) i c rest).All Access.Inside ↔
      ∀ x ∈ settings rest, ∃ v, x.2 = some v ∧ v.length < fieldSize := by
  induction rest using settings.induct generalizing i c with
  | case1 => exact iff_of_true (Logged.all_pure _) fun _ h => nomatch h
  | case2 rest =>
    rw [parseLoop, if_pos rfl, settings, if_pos rfl]
    refine iff_of_true ?_ fun _ h => nomatch h
    simp only [Logged.all_bind, Logged.all_tell, Logged.all_pure, and_true]
    have hlen : i < i + (ascii "--" :: rest).length := by simp
    exact ⟨index_inside hlen, index_inside (Nat.zero_lt_of_lt hlen), h₀⟩
  | case3 a ha k hk =>
    rw [parseLoop_last ha hk, settings, if_neg ha, hk]
    refine iff_of_false (fun h => ?_) fun h => ?_
    · -- the value would be entry `argc`
      simp only [Logged.all_bind, Logged.all_tell] at h
      obtain ⟨-, ⟨-, hlt⟩, -⟩ := h
      rw [List.length_singleton] at hlt
      omega
    · obtain ⟨v, hv, -⟩ := h (k, none) (List.mem_cons_self ..)
      cases hv
  | case4 a ha k hk v rest ih =>
    have hlen : i + (a :: v :: rest).length = i + 2 + rest.length := by
      simp only [List.length_cons]
      omega
    rw [parseLoop_key ha hk, settings, if_neg ha, hk, List.forall_mem_cons, hlen]
    simp only [Logged.all_bind, Logged.all_tell, ih]
    have hindex : Access.Inside (.index i ↑(i + 2 + rest.length)) := index_inside (by omega)
    have hnext : Access.Inside (.index (↑i + 1) ↑(i + 2 + rest.length)) :=
      index_inside (i := i + 1) (by omega)
    constructor
    · rintro ⟨-, -, hfield, hrest⟩
      exact ⟨⟨v, rfl, hfield⟩, hrest⟩
    · rintro ⟨⟨w, hw, hfield⟩, hrest⟩
      cases hw
      exact ⟨hindex, hnext, hfield, hrest⟩
  | case5 a rest ha hk ih =>
    have hlen : i + (a :: rest).length = i + 1 + rest.length := by
      simp only [List.length_cons]
      omega
    rw [parseLoop_skip ha hk, settings, if_neg ha, hk, hlen, Logged.all_bind, Logged.all_tell, ih]
    exact and_iff_right (index_inside (by omega))

theorem parseLoop_value (argv₀ : Arg) (argc i : Nat) (c : Config)
    (hvalues : ∀ x ∈ settings rest, ∃ v, x.2 = some v) :
    ∃ c', (parseLoop argv₀ argc i c rest).value = some c' ∧ ∀ k,
      ((∃ v, c'.get k = some v) ↔ (∃ v, c.get k = some v) ∨ ∃ v, (k, some v) ∈ settings rest) ∧
        ∀ v, c'.get k = some v → c.get k = some v ∨ v ∈ rest := by
  induction rest using settings.induct generalizing i c with
  | case1 => exact ⟨c, rfl, fun k => ⟨by simp [settings], fun v h => Or.inl h⟩⟩
  | case2 rest =>
    refine ⟨c, by rw [parseLoop, if_pos rfl]; rfl, fun k => ⟨?_, fun v h => Or.inl h⟩⟩
    simp [settings]
  | case3 a ha k hk =>
    rw [settings, if_neg ha, hk] at hvalues
    obtain ⟨v, hv⟩ := hvalues (k, none) (List.mem_cons_self ..)
    cases hv
  | case4 a ha k hk v rest ih =>
    rw [settings, if_neg ha, hk] at hvalues ⊢
    obtain ⟨c', hc', hget⟩ := ih (i + 2) (c.set v k) (List.forall_mem_cons.mp hvalues).2
    refine ⟨c', by rw [parseLoop_key ha hk]; exact hc', fun j => ⟨?_, fun w hw => ?_⟩⟩
    · rw [(hget j).1, Config.get_set]
      by_cases hj : j = k
      · simp [hj]
      · simp [hj]
    · rcases (hget j).2 w hw with h | h
      · rw [Config.get_set] at h
        by_cases hj : j = k
        · rw [if_pos hj] at h
          cases h
          exact Or.inr (by simp)
        · rw [if_neg hj] at h
          exact Or.inl h
      · exact Or.inr (by simp [h])
  | case5 a rest ha hk ih =>
    rw [settings, if_neg ha, hk] at hvalues ⊢
    obtain ⟨c', hc', hget⟩ := ih (i + 1) c hvalues
    refine ⟨c', by rw [parseLoop_skip ha hk]; exact hc', fun j => ⟨(hget j).1, fun w hw => ?_⟩⟩
    exact ((hget j).2 w hw).imp_right (List.mem_cons_of_mem _)

end

theorem parseArgs_inside {l : List Arg} (hshort : ∀ a ∈ l, a.length < entrySize) (c : Config) :
    (parseArgs c l).All Access.Inside ↔
      ∀ x ∈ settings l.tail, ∃ v, x.2 = some v ∧ v.length < fieldSize := by
  cases l with
  | nil => exact iff_of_true (Logged.all_pure _) fun _ h => nomatch h
  | cons argv₀ rest =>
    have h := parseLoop_inside (hshort argv₀ (List.mem_cons_self ..)) 1 c rest
    rw [Nat.add_comm] at h
    exact h

theorem parseArgs_value {l : List Arg} (hvalues : ∀ x ∈ settings l.tail, ∃ v, x.2 = some v) :
    ∃ c, (parseArgs .malloc l).value = some c ∧ ∀ k,
      ((∃ v, c.get k = some v) ↔ ∃ v, (k, some v) ∈ settings l.tail) ∧
        ∀ v, c.get k = some v → v ∈ l := by
  have hmalloc : ∀ k, Config.malloc.get k = none := fun k => by cases k <;> rfl
  cases l with
  | nil =>
    refine ⟨.malloc, rfl, fun k => ⟨?_, fun v h => ?_⟩⟩
    · simp [hmalloc, settings]
    · rw [hmalloc] at h
      cases h
  | cons argv₀ rest =>
    obtain ⟨c, hc, hget⟩ := parseLoop_value argv₀ (rest.length + 1) 1 .malloc hvalues
    refine ⟨c, hc, fun k => ⟨?_, fun v h => ?_⟩⟩
    · rw [(hget k).1, hmalloc]
      simp
    · rcases (hget k).2 v h with h | h
      · rw [hmalloc] at h
        cases h
      · exact List.mem_cons_of_mem _ h

section
variable {ports workers : Nat} {l args : List Arg}

theorem initWorkers_inside (hshort : ∀ a ∈ l, a.length < entrySize) :
    (initWorkers ports workers l).All Access.Inside ↔
      ∀ x ∈ settings l.tail, ∃ v, x.2 = some v ∧ v.length < fieldSize := by
  unfold initWorkers
  rw [Logged.all_bind, parseArgs_inside hshort]
  refine and_iff_left ?_
  split
  · exact Logged.all_pure _
  · exact Logged.all_pure _

theorem initWorkers_value {c : Config} (hc : (parseArgs .malloc l).value = some c) :
    (initWorkers ports workers l).value = if ports = 0 then [] else List.replicate workers c := by
  unfold initWorkers
  rw [Logged.value_bind, hc]
  rfl

theorem initWorkers_safe (hshort : ∀ a ∈ l, a.length < entrySize) (hargs : ∀ a ∈ l, a ∈ args) :
    ConfigSafe (initWorkers ports workers l) args ↔
      GoodSettings (0 < ports ∧ 0 < workers) (settings l.tail) := by
  constructor
  · intro ⟨hin, hcomplete⟩
    have hvalues := (initWorkers_inside hshort).mp hin
    refine ⟨hvalues, fun ⟨hports, hworkers⟩ k => ?_⟩
    obtain ⟨c, hc, hget⟩ := parseArgs_value fun x hx => (hvalues x hx).imp fun _ h => h.1
    rw [initWorkers_value hc, if_neg (Nat.ne_of_gt hports)] at hcomplete
    obtain ⟨v, -, hv⟩ := hcomplete c (List.mem_replicate.mpr ⟨Nat.ne_of_gt hworkers, rfl⟩) k
    exact (hget k).1.mp ⟨v, hv⟩
  · intro ⟨hvalues, hkeys⟩
    refine ⟨(initWorkers_inside hshort).mpr hvalues, ?_⟩
    obtain ⟨c, hc, hget⟩ := parseArgs_value fun x hx => (hvalues x hx).imp fun _ h => h.1
    rw [initWorkers_value hc]
    intro c' hc' k
    by_cases hports : ports = 0
    · rw [if_pos hports] at hc'
      cases hc'
    · rw [if_neg hports] at hc'
      obtain ⟨hworkers, rfl⟩ := List.mem_replicate.mp hc'
      obtain ⟨v, hv⟩ := (hget k).1.mpr
        (hkeys ⟨Nat.pos_of_ne_zero hports, Nat.pos_of_ne_zero hworkers⟩ k)
      exact ⟨v, hargs v ((hget k).2 v hv), hv⟩

end

theorem fillArgv_good (l : List Arg) : (fillArgv (asInt l.length) 0 l).All Access.Inside ↔
    l.length < 2 ^ 31 ∧ ∀ a ∈ l, a.length < entrySize := by
  rw [fillArgv_inside, ← indices_inside]
  simp only [Nat.zero_add]

theorem configSafe_bind {β : Type} {args : List Arg} (m : Logged Access β)
    (f : β → Logged Access (List Config)) :
    ConfigSafe (m >>= f) args ↔ m.All Access.Inside ∧ ConfigSafe (f m.value) args := by
  constructor
  · intro ⟨hin, hcomplete⟩
    rw [Logged.all_bind] at hin
    exact ⟨hin.1, hin.2, hcomplete⟩
  · intro ⟨hm, hin, hcomplete⟩
    refine ⟨?_, hcomplete⟩
    rw [Logged.all_bind]
    exact ⟨hm, hin⟩

theorem configInit_safe (eal : Eal) (ports workers : Nat) (text : List Byte) :
    ConfigSafe (configInit eal ports workers (some text)) (fileArgs text) ↔
      ((fileArgs text).length < 2 ^ 31 ∧ ∀ a ∈ fileArgs text, a.length < entrySize) ∧
        ∀ argv ret, eal.init (fileArgs text) = some (argv, ret) →
          ConfigSafe (initWorkers ports workers (argv.drop ret)) (fileArgs text) := by
  unfold configInit
  dsimp only
  rw [configSafe_bind, configSafe_bind, fillArgv_good, and_iff_right (printArgv_inside _)]
  apply and_congr_right
  intro _
  cases eal.init (fileArgs text) with
  | none => exact iff_of_true ⟨Logged.all_pure _, fun _ h => nomatch h⟩ fun _ _ h => nomatch h
  | some x =>
    constructor
    · rintro h argv ret ⟨⟩
      exact h
    · exact fun h => h x.1 x.2 rfl

/-- For every file and every way in which `rte_eal_init` divides the vector. -/
theorem configSafe_iff (eal : Eal) (ports workers : Nat) (text : List Byte) :
    ConfigSafe (configInit eal ports workers (some text)) (fileArgs text) ↔
      GoodConfig eal ports workers (fileArgs text) := by
  have hworkers : (∀ a ∈ fileArgs text, a.length < entrySize) → ∀ argv ret,
      eal.init (fileArgs text) = some (argv, ret) →
        (ConfigSafe (initWorkers ports workers (argv.drop ret)) (fileArgs text) ↔
          GoodSettings (0 < ports ∧ 0 < workers) (settings (argv.drop (ret + 1)))) := by
    intro hshort argv ret heal
    have hmem : ∀ a ∈ argv.drop ret, a ∈ fileArgs text :=
      fun a ha => eal.entries heal a (List.mem_of_mem_drop ha)
    rw [← List.tail_drop]
    exact initWorkers_safe (fun a ha => hshort a (hmem a ha)) hmem
  rw [configInit_safe]
  constructor
  · rintro ⟨⟨hcount, hshort⟩, h⟩
    exact ⟨hcount, hshort, fun argv ret heal => (hworkers hshort argv ret heal).mp (h argv ret heal)⟩
  · rintro ⟨hcount, hshort, h⟩
    exact ⟨⟨hcount, hshort⟩, fun argv ret heal =>
      (hworkers hshort argv ret heal).mpr (h argv ret heal)⟩

/-- All in front of "--" is parsed; its entry then points to the name of the program. -/
def Eal.upToDashes : Eal where
  init l := (l.idxOf? (ascii "--")).map fun n => (l.set n (l.headD []), n)
  length h := by
    obtain ⟨n, -, he⟩ := Option.map_eq_some_iff.mp h
    cases he
    exact List.length_set
  parsed h := by
    obtain ⟨n, hn, he⟩ := Option.map_eq_some_iff.mp h
    cases he
    exact Nat.le_of_lt (List.idxOf?_eq_some_iff.mp hn).1
  entries {l _ _} h a ha := by
    obtain ⟨n, hn, he⟩ := Option.map_eq_some_iff.mp h
    cases he
    rcases List.mem_or_eq_of_mem_set ha with h | rfl
    · exact h
    · cases l with
      | nil => cases hn
      | cons b l => exact List.mem_cons_self ..

example : (configInit .upToDashes 1 2 (some (ascii
    "build/tcp\n-w\n03:00.0\n-l\n0,1\n--\nsrc_ip\n192.168.0.1\nsrc_mac\nA\ndst_mac\nB"))).value =
    List.replicate 2 ⟨some (ascii "192.168.0.1"), some (ascii "A"), some (ascii "B")⟩ := by
  decide +kernel

/-- The last line is a key. -/
theorem not_configSafe : ¬∀ (eal : Eal) (ports workers : Nat) (text : List Byte),
    ConfigSafe (configInit eal ports workers (some text)) (fileArgs text) := by
  intro h
  have hlast := (h .upToDashes 1 1 (ascii "tcp\n--\nsrc_ip\n")).inside (.index 2 2) (by decide +kernel)
  exact absurd hlast.2 (by decide)

end TcpDpdk
