import TcpDpdk.ControlPanel
import TcpDpdk.Lib.Files
import TcpDpdk.Lib.Logged

/-!
# The descriptors of the control panel

`conn_init`, the two polls and `conn_free` with the system calls they make, each of them
failing as it likes, and the numbers the system gives out: a number that was closed comes
back, perhaps to another part of the process. `descriptors` says that the panel never touches
a file that is not meant, and what is left of it at the end; `panel_refines` that to name
clients by the connection accepted, as `Panel` does, is right.
-/

namespace TcpDpdk

/-- What a descriptor of the process stands for. -/
inductive File where
  | server
  | group
  | client (i : Client)
  /-- a file of another part of the process -/
  | other
  deriving DecidableEq

def File.client? : File → Option Client
  | .client i => some i
  | .server => none
  | .group => none
  | .other => none

inductive Block where
  | conn
  | welcome
  | prompt
  | buf
  | msgIn
  | msgOut
  deriving DecidableEq

def connBlocks : List Block := [.conn, .welcome, .prompt, .buf, .msgIn, .msgOut]

/-- A system call with the files behind the descriptors it is given, or a call of `free`: is
the block allocated? -/
inductive Use where
  | bind (file : Option File)
  | listen (file : Option File)
  | accept (file : Option File)
  | epollCtl (group file : Option File)
  | epollWait (file : Option File)
  | read (file : Option File)
  | write (file : Option File)
  | close (file : Option File)
  | free (live : Bool)

@[ext] structure Process where
  files : Files File
  blocks : List Block

/-- `struct conn`, what `conn_free` looks at -/
structure ConnFields where
  /-- not `NULL` -/
  ptr : Block → Bool
  fdServer : Nat
  fdClientGroup : Nat

namespace Process

/-- The file goes, and with the group what it watches. -/
def close (p : Process) (fd : Nat) : Logged Use Process :=
  Logged.tell (.close (p.files.file fd)) { p with
    files := { p.files.close fd with
      watched := if p.files.file fd = some .group then [] else p.files.watched.erase fd } }

def read (p : Process) (fd : Nat) : Logged Use Unit := Logged.tell (.read (p.files.file fd)) ()

def write (p : Process) (fd : Nat) : Logged Use Unit := Logged.tell (.write (p.files.file fd)) ()

def epollCtl (p : Process) (c : ConnFields) (fd : Nat) : Logged Use Unit :=
  Logged.tell (.epollCtl (p.files.file c.fdClientGroup) (p.files.file fd)) ()

/-- `free` of a member, of which `free(NULL)` takes no notice -/
def free (p : Process) (c : ConnFields) (b : Block) : Logged Use Process :=
  if c.ptr b then Logged.tell (.free (decide (b ∈ p.blocks))) { p with blocks := p.blocks.erase b }
  else pure p

/-- `if (fd) close(fd)` -/
def closeSet (p : Process) (fd : Nat) : Logged Use Process := if fd ≠ 0 then p.close fd else pure p

/-- `buf` is not among them. -/
def freeMembers (p : Process) (c : ConnFields) : Logged Use Process := do
  let p ← p.free c .msgOut
  let p ← p.free c .msgIn
  let p ← p.free c .prompt
  let p ← p.free c .welcome
  p.free c .conn

def connFree (p : Process) (c : ConnFields) : Logged Use Process := do
  let p ← p.closeSet c.fdClientGroup
  let p ← p.closeSet c.fdServer
  p.freeMembers c

end Process

/-- What the system answers to `conn_init`: numbers it gives out are not in use. -/
structure InitEnv where
  calloc : Block → Bool
  socket : Option Nat
  bind : Bool
  listen : Bool
  epollCreate : Option Nat

def givenOut (fs : Files File) (fd : Option Nat) : Option Nat := fd.filter fs.unused

/-- The constants that `conn_init` checks first pass. -/
def connInit (fs : Files File) (env : InitEnv) : Logged Use (Process × Option ConnFields) := do
  if env.calloc .conn = false then return (⟨fs, []⟩, none)
  else
    let p : Process := ⟨fs, connBlocks.filter env.calloc⟩
    let c : ConnFields := ⟨env.calloc, 0, 0⟩
    if connBlocks.all env.calloc = false then
      let p ← p.connFree c
      return (p, none)
    else match givenOut fs env.socket with
      | none => do
        let p ← p.connFree c
        return (p, none)
      | some fdServer => do
        let p := { p with files := p.files.put fdServer .server }
        Logged.tell (.bind (p.files.file fdServer)) ()
        if env.bind = false then
          let p ← p.connFree c
          let p ← p.close fdServer
          return (p, none)
        else
          Logged.tell (.listen (p.files.file fdServer)) ()
          if env.listen = false then
            let p ← p.connFree c
            let p ← p.close fdServer
            return (p, none)
          else match givenOut p.files env.epollCreate with
            | none => do
              let p ← p.connFree c
              let p ← p.close fdServer
              return (p, none)
            | some fdClientGroup =>
              return ({ p with files := p.files.put fdClientGroup .group },
                some ⟨env.calloc, fdServer, fdClientGroup⟩)

/-! ## The polls -/

/-- `conn_poll_for_conn`, what it does with a client it has accepted -/
def Process.welcome (p : Process) (c : ConnFields) (fd : Nat) (add welcome prompt : Bool) :
    Logged Use (Process × Int) := do
  p.epollCtl c fd
  if add = false then
    let p ← p.close fd
    return (p, -1)
  else
    let p := { p with files := p.files.watch fd }
    p.write fd
    if welcome = false then
      let p ← p.close fd
      return (p, -1)
    else
      p.write fd
      if prompt = false then
        let p ← p.close fd
        return (p, -1)
      else
        return (p, 0)

/-- The round of the loop writes if there is an answer or the line is too long. -/
def Process.answer (p : Process) (fd : Nat) (c : Conn Byte) (r : Received Byte) : Logged Use Unit :=
  if r.byte = newline ∧ r.answers = true ∨ r.byte ≠ newline ∧ msgInLenMax ≤ c.msgIn.length then
    p.write fd
  else pure ()

def Process.dataLoop (p : Process) (fd : Nat) :
    Conn Byte → List (Received Byte) → Logged Use (Conn Byte × List (List Byte) × Bool)
  | c, [] => return (c, [], true)
  | c, r :: rs => do
    p.answer fd c r
    let x := dataByte c r
    if x.2.2 = true then
      let y ← p.dataLoop fd x.1 rs
      return (y.1, x.2.1.toList ++ y.2.1, y.2.2)
    else
      return (x.1, x.2.1.toList, false)

def Process.dataEventHandle (p : Process) (fd : Nat) (c : Conn Byte) :
    ReadResult Byte → Logged Use (Conn Byte × List (List Byte) × Int)
  | .error again => do
    p.read fd
    return (c, [], if again then 0 else -1)
  | .bytes [] _ => do
    p.read fd
    return (c, [], 0)
  | .bytes (r :: rs) prompt => do
    p.read fd
    let x ← p.dataLoop fd c (r :: rs)
    if x.2.2 = true then
      p.write fd
      return (x.1, x.2.1, if prompt then 0 else -1)
    else
      return (x.1, x.2.1, -1)

/-- A descriptor is gone after `close`, whatever that returns. -/
def Process.controlEventHandle (p : Process) (c : ConnFields) (fd : Nat) (del close : Bool) :
    Logged Use (Process × Int) := do
  p.epollCtl c fd
  if del = true then
    let p ← { p with files := p.files.unwatch fd }.close fd
    return (p, if close then 0 else -1)
  else
    return (p, -1)

/-- The process once `conn_init` has given it its `struct conn`. -/
structure PanelProcess where
  process : Process
  fields : ConnFields
  conn : Conn Byte
  accepted : Client

structure FdEvent where
  fd : Nat
  input : Option (ReadResult Byte)
  hangup : Option (Bool × Bool)

structure FdCall where
  fdClient : Nat
  msgIn : List Byte

inductive FdTurn where
  /-- What `accept4` gives, and do the calls that follow succeed? -/
  | pollForConn (fd : Option Nat) (again add welcome prompt : Bool)
  /-- What `epoll_wait` reports; if nothing, is it 0? -/
  | pollForMsg (ev : Option FdEvent) (ok : Bool)
  /-- Another part of the process opens a file or closes one of its own. -/
  | opens (fd : Nat)
  | closes (fd : Nat)

structure FdOut where
  uses : List Use
  calls : List FdCall
  status : Int

namespace PanelProcess

def connPollForConn (s : PanelProcess) (fd : Option Nat) (again add welcome prompt : Bool) :
    Logged Use (PanelProcess × List FdCall × Int) := do
  Logged.tell (.accept (s.process.files.file s.fields.fdServer)) ()
  match givenOut s.process.files fd with
  | none => return (s, [], if again then 0 else -1)
  | some fd =>
    let p := { s.process with files := s.process.files.put fd (.client s.accepted) }
    let x ← p.welcome s.fields fd add welcome prompt
    return ({ s with process := x.1, accepted := s.accepted + 1 }, [], x.2)

def inputHandle (s : PanelProcess) (fd : Nat) :
    Option (ReadResult Byte) → Logged Use (Conn Byte × List (List Byte) × Int)
  | none => return (s.conn, [], 0)
  | some r => s.process.dataEventHandle fd s.conn r

def hangupHandle (s : PanelProcess) (fd : Nat) : Option (Bool × Bool) → Logged Use (Process × Int)
  | none => return (s.process, 0)
  | some (del, close) => s.process.controlEventHandle s.fields fd del close

/-- Only what is watched is reported. -/
def connPollForMsg (s : PanelProcess) (ev : Option FdEvent) (ok : Bool) :
    Logged Use (PanelProcess × List FdCall × Int) := do
  Logged.tell (.epollWait (s.process.files.file s.fields.fdClientGroup)) ()
  match ev.filter fun ev => ev.fd ∈ s.process.files.watched with
  | none => return (s, [], if ok then 0 else -1)
  | some ev =>
    let data ← s.inputHandle ev.fd ev.input
    let control ← s.hangupHandle ev.fd ev.hangup
    return ({ s with conn := data.1, process := control.1 }, data.2.1.map (⟨ev.fd, ·⟩),
      if data.2.2 ≠ 0 ∨ control.2 ≠ 0 then -1 else 0)

/-- Another part of the process is given a number that is not in use. -/
def opens (s : PanelProcess) (fd : Nat) : PanelProcess :=
  if s.process.files.unused fd then
    { s with process := { s.process with files := s.process.files.put fd .other } }
  else s

def closes (s : PanelProcess) (fd : Nat) : PanelProcess :=
  if s.process.files.file fd = some .other then
    { s with process := { s.process with files := s.process.files.close fd } }
  else s

def step (s : PanelProcess) : FdTurn → Logged Use (PanelProcess × List FdCall × Int)
  | .pollForConn fd again add welcome prompt => s.connPollForConn fd again add welcome prompt
  | .pollForMsg ev ok => s.connPollForMsg ev ok
  | .opens fd => return (s.opens fd, [], 0)
  | .closes fd => return (s.closes fd, [], 0)

end PanelProcess

/-- Before `conn_init` there are files of other parts only. -/
def Elsewhere (fs : Files File) : Prop :=
  fs.watched = [] ∧ ∀ fd f, fs.file fd = some f → f = .other

def fdMachine : Machine PanelProcess FdTurn FdOut where
  init s := ∃ fs env, Elsewhere fs ∧
    (connInit fs env).value = (s.process, some s.fields) ∧ s.conn = .empty ∧ s.accepted = 0
  step s t :=
    let x := s.step t
    some (x.value.1, ⟨x.log, x.value.2.1, x.value.2.2⟩)

/-! ## What a call touches -/

/-- The file a call is meant for; reads, writes and closes are for files with `P`. -/
def Use.Right (P : File → Prop) : Use → Prop
  | .bind f => f = some .server
  | .listen f => f = some .server
  | .accept f => f = some .server
  | .epollCtl g f => g = some .group ∧ ∃ x, f = some x ∧ P x
  | .epollWait f => f = some .group
  | .read f => ∃ x, f = some x ∧ P x
  | .write f => ∃ x, f = some x ∧ P x
  | .close f => ∃ x, f = some x ∧ P x
  | .free live => live = true

/-- The client whose connection is closed. -/
def Use.closed? : Use → Option Client
  | .close f => f.bind File.client?
  | _ => none

def closedClients (l : List Use) : List Client := l.filterMap Use.closed?

theorem closedClients_append (l l' : List Use) :
    closedClients (l ++ l') = closedClients l ++ closedClients l' := List.filterMap_append

section
variable {p : Process} {fd : Nat} {i : Client}

theorem close_file {f : File} (h : p.files.file fd = some f) (hf : f ≠ .group) : p.close fd =
    Logged.tell (.close (some f)) { p with files := p.files.close fd } := by
  unfold Process.close
  rw [h, if_neg fun he => hf (Option.some.inj he)]
  rfl

theorem close_client (h : p.files.file fd = some (.client i)) : p.close fd =
    Logged.tell (.close (some (.client i))) { p with files := p.files.close fd } :=
  close_file h (by simp)

theorem write_client (h : p.files.file fd = some (.client i)) :
    p.write fd = Logged.tell (.write (some (.client i))) () := by
  unfold Process.write
  rw [h]

theorem epollCtl_client {c : ConnFields} (hg : p.files.file c.fdClientGroup = some .group)
    (h : p.files.file fd = some (.client i)) :
    p.epollCtl c fd = Logged.tell (.epollCtl (some .group) (some (.client i))) () := by
  unfold Process.epollCtl
  rw [hg, h]

/-- Reads and writes: the client's file is touched, and it stays. -/
def Use.Io (i : Client) (u : Use) : Prop := u.Right (· = .client i) ∧ u.closed? = none

theorem closedClients_io {l : List Use} (h : ∀ u ∈ l, u.Io i) : closedClients l = [] := by
  unfold closedClients
  rw [List.filterMap_eq_nil_iff]
  exact fun u hu => (h u hu).2

variable (h : p.files.file fd = some (.client i))

include h

theorem read_io : (p.read fd).All (Use.Io i) := by
  unfold Process.read
  rw [Logged.all_tell]
  exact ⟨⟨_, h, rfl⟩, rfl⟩

theorem write_io : (p.write fd).All (Use.Io i) := by
  unfold Process.write
  rw [Logged.all_tell]
  exact ⟨⟨_, h, rfl⟩, rfl⟩

theorem dataLoop_io (c : Conn Byte) (rs : List (Received Byte)) :
    (p.dataLoop fd c rs).All (Use.Io i) ∧ (p.dataLoop fd c rs).value = dataLoop c rs := by
  induction rs generalizing c with
  | nil => exact ⟨Logged.all_pure _, rfl⟩
  | cons r rs ih =>
    obtain ⟨hall, hval⟩ := ih (dataByte c r).1
    have hw : (p.answer fd c r).All (Use.Io i) :=
      Logged.all_ite (fun _ => write_io h) fun _ => Logged.all_pure _
    unfold Process.dataLoop TcpDpdk.dataLoop
    generalize dataByte c r = x at hall hval
    obtain ⟨d, cmd, go⟩ := x
    cases go with
    | true =>
      simp only [if_true, Logged.all_bind, Logged.all_pure, and_true, Logged.value_bind,
        Logged.value_pure, hval]
      exact ⟨hw, hall⟩
    | false => simpa using hw

theorem dataEventHandle_io (c : Conn Byte) (r : ReadResult Byte) :
    (p.dataEventHandle fd c r).All (Use.Io i) ∧
      (p.dataEventHandle fd c r).value = TcpDpdk.dataEventHandle c r := by
  cases r with
  | error again => exact ⟨by simpa [Process.dataEventHandle] using read_io h, rfl⟩
  | bytes rs prompt =>
    cases rs with
    | nil => exact ⟨by simpa [Process.dataEventHandle] using read_io h, rfl⟩
    | cons r rs =>
      obtain ⟨hall, hval⟩ := dataLoop_io h c (r :: rs)
      unfold Process.dataEventHandle TcpDpdk.dataEventHandle
      simp only [Logged.all_bind, Logged.value_bind, hval]
      cases hgo : (dataLoop c (r :: rs)).2.2 with
      | true => simpa [hall, write_io h] using read_io h
      | false => simpa [hall] using read_io h

end

/-- The client is closed again or watched. -/
theorem welcome_ends {p : Process} {c : ConnFields} {fd : Nat} {i : Client}
    (hg : p.files.file c.fdClientGroup = some .group) (h : p.files.file fd = some (.client i))
    (hw : fd ∉ p.files.watched) (add welcome prompt : Bool) :
    (p.welcome c fd add welcome prompt).All (Use.Right (· = .client i)) ∧
      ((p.welcome c fd add welcome prompt).value = ({ p with files := p.files.close fd }, -1) ∧
          closedClients (p.welcome c fd add welcome prompt).log = [i] ∨
        (p.welcome c fd add welcome prompt).value = ({ p with files := p.files.watch fd }, 0) ∧
          closedClients (p.welcome c fd add welcome prompt).log = []) := by
  have h' : (p.files.watch fd).file fd = some (.client i) := h
  unfold Process.welcome
  rw [epollCtl_client hg h]
  cases add with
  | false =>
    simp only [if_true, close_client h]
    exact ⟨by simp [Use.Right], Or.inl ⟨rfl, rfl⟩⟩
  | true =>
    simp only [Bool.true_eq_false, if_false, write_client (p := ⟨p.files.watch fd, p.blocks⟩) h',
      close_client (p := ⟨p.files.watch fd, p.blocks⟩) h', Files.watch_close hw]
    cases welcome with
    | false => exact ⟨by simp [Use.Right], Or.inl ⟨rfl, rfl⟩⟩
    | true =>
      cases prompt with
      | false => exact ⟨by simp [Use.Right], Or.inl ⟨rfl, rfl⟩⟩
      | true => exact ⟨by simp [Use.Right], Or.inr ⟨rfl, rfl⟩⟩

/-- The client stays or, unless it cannot be taken out of the group, it is closed. -/
theorem controlEventHandle_ends {p : Process} {c : ConnFields} {fd : Nat} {i : Client}
    (hg : p.files.file c.fdClientGroup = some .group) (h : p.files.file fd = some (.client i))
    (hw : p.files.watched.Nodup) (del close : Bool) :
    (p.controlEventHandle c fd del close).All (Use.Right (· = .client i)) ∧
      ((p.controlEventHandle c fd del close).value =
          if del then ({ p with files := p.files.close fd }, if close then 0 else -1) else (p, -1)) ∧
      closedClients (p.controlEventHandle c fd del close).log = if del then [i] else [] := by
  have h' : (p.files.unwatch fd).file fd = some (.client i) := h
  unfold Process.controlEventHandle
  rw [epollCtl_client hg h]
  cases del with
  | false => exact ⟨by simp [Use.Right], rfl, rfl⟩
  | true =>
    simp only [if_true, close_client (p := ⟨p.files.unwatch fd, p.blocks⟩) h',
      Files.unwatch_close hw]
    exact ⟨by simp [Use.Right], rfl, rfl⟩

theorem item_client_iff {fs : Files File} {fd : Nat} {i : Client} :
    fs.item File.client? fd = some i ↔ fs.file fd = some (.client i) := by
  unfold Files.item
  cases fs.file fd with
  | none => simp
  | some f => cases f <;> simp [File.client?]

/-! ## What a turn does -/

namespace PanelProcess

def clients (s : PanelProcess) : List Client := s.process.files.items File.client?

/-- The clients are those watched, each behind one number, and the files of the panel are where
`struct conn` says. -/
structure Sound (s : PanelProcess) : Prop where
  kept : s.process.files.Kept File.client?
  server : ∀ fd, s.process.files.file fd = some .server ↔ fd = s.fields.fdServer
  group : ∀ fd, s.process.files.file fd = some .group ↔ fd = s.fields.fdClientGroup
  below : ∀ i ∈ s.clients, i < s.accepted

/-- How the files and the number of clients accepted change, and whose connection is closed. -/
inductive Moved (s : PanelProcess) : Files File → Client → List Client → Prop
  | stays : Moved s s.process.files s.accepted []
  | refused : Moved s s.process.files (s.accepted + 1) [s.accepted]
  | joins (fd : Nat) : s.process.files.unused fd →
      Moved s ((s.process.files.put fd (.client s.accepted)).watch fd) (s.accepted + 1) []
  | leaves (fd : Nat) (i : Client) : s.process.files.file fd = some (.client i) →
      Moved s (s.process.files.close fd) s.accepted [i]
  | opens (fd : Nat) : s.process.files.unused fd →
      Moved s (s.process.files.put fd .other) s.accepted []
  | closes (fd : Nat) : s.process.files.file fd = some .other →
      Moved s (s.process.files.close fd) s.accepted []

/-- The result of a turn, whose calls are for one client's file besides the panel's own two. -/
structure Turned (s : PanelProcess) (i : Client) (m : Logged Use (PanelProcess × List FdCall × Int)) :
    Prop where
  right : m.All (Use.Right (· = .client i))
  moved : Moved s m.value.1.process.files m.value.1.accepted (closedClients m.log)
  fields : m.value.1.fields = s.fields
  blocks : m.value.1.process.blocks = s.process.blocks

variable {s : PanelProcess} (h : s.Sound)

include h

theorem Sound.file (fd : Nat) (hw : fd ∈ s.process.files.watched) :
    ∃ i, s.process.files.file fd = some (.client i) ∧ i ∈ s.clients := by
  have hitem := (h.kept.watched_iff fd).mp hw
  unfold Files.item at hitem
  cases hf : s.process.files.file fd with
  | none => simp [hf] at hitem
  | some f =>
    cases f with
    | client i =>
      exact ⟨i, rfl, (Files.mem_items h.kept).mpr ⟨fd, item_client_iff.mpr hf⟩⟩
    | server => simp [hf, File.client?] at hitem
    | group => simp [hf, File.client?] at hitem
    | other => simp [hf, File.client?] at hitem

/-- A client that is accepted is refused or joins. -/
theorem conn_ends {fd : Option Nat} {a : Nat} (hfd : givenOut s.process.files fd = some a)
    (again add welcome prompt : Bool) :
    (s.connPollForConn fd again add welcome prompt).All (Use.Right (· = .client s.accepted)) ∧
      s.process.files.unused a ∧
      ((s.connPollForConn fd again add welcome prompt).value =
            ({ s with accepted := s.accepted + 1 }, [], -1) ∧
          closedClients (s.connPollForConn fd again add welcome prompt).log = [s.accepted] ∨
        (s.connPollForConn fd again add welcome prompt).value =
            ({ s with
              process := { s.process with
                files := (s.process.files.put a (.client s.accepted)).watch a }
              accepted := s.accepted + 1 }, [], 0) ∧
          closedClients (s.connPollForConn fd again add welcome prompt).log = []) := by
  have hserver := (h.server s.fields.fdServer).mpr rfl
  have hgroup := (h.group s.fields.fdClientGroup).mpr rfl
  obtain ⟨-, hunused⟩ := Option.filter_eq_some_iff.mp hfd
  have hw := h.kept.not_watched (Files.item_unused hunused)
  have hne : s.fields.fdClientGroup ≠ a := by
    rintro rfl
    rw [Files.unused, hgroup] at hunused
    cases hunused
  obtain ⟨hall, hends⟩ := welcome_ends
    (p := ⟨s.process.files.put a (.client s.accepted), s.process.blocks⟩) (c := s.fields)
    ((Files.put_ne hne).trans hgroup) Files.put_self hw add welcome prompt
  unfold connPollForConn
  simp only [hfd, hserver, Logged.log_bind, Logged.log_tell, Logged.log_pure, List.append_nil,
    closedClients_append, Logged.value_bind, Logged.value_pure]
  refine ⟨by simpa [Use.Right] using hall, hunused, ?_⟩
  rcases hends with ⟨hval, hlog⟩ | ⟨hval, hlog⟩
  · rw [hval, hlog, Files.put_close hunused hw]
    exact Or.inl ⟨rfl, rfl⟩
  · rw [hval, hlog]
    exact Or.inr ⟨rfl, rfl⟩

theorem turned_conn (fd : Option Nat) (again add welcome prompt : Bool) :
    Turned s s.accepted (s.connPollForConn fd again add welcome prompt) := by
  cases hfd : givenOut s.process.files fd with
  | none =>
    unfold connPollForConn
    rw [hfd]
    refine ⟨?_, .stays, rfl, rfl⟩
    simpa [Use.Right] using (h.server s.fields.fdServer).mpr rfl
  | some a =>
    obtain ⟨hall, hunused, hends⟩ := conn_ends h hfd again add welcome prompt
    rcases hends with ⟨hval, hlog⟩ | ⟨hval, hlog⟩
    · refine ⟨hall, ?_, by rw [hval], by rw [hval]⟩
      rw [hval, hlog]
      exact .refused
    · refine ⟨hall, ?_, by rw [hval], by rw [hval]⟩
      rw [hval, hlog]
      exact .joins a hunused

theorem hangup_moves {fd : Nat} {i : Client} (hfile : s.process.files.file fd = some (.client i))
    (hangup : Option (Bool × Bool)) :
    (s.hangupHandle fd hangup).All (Use.Right (· = .client i)) ∧
      Moved s (s.hangupHandle fd hangup).value.1.files s.accepted
        (closedClients (s.hangupHandle fd hangup).log) ∧
      (s.hangupHandle fd hangup).value.1.blocks = s.process.blocks := by
  cases hangup with
  | none => exact ⟨Logged.all_pure _, .stays, rfl⟩
  | some x =>
    obtain ⟨del, close⟩ := x
    obtain ⟨hall, hval, hlog⟩ := controlEventHandle_ends ((h.group _).mpr rfl) hfile h.kept.nodup
      del close
    unfold hangupHandle
    rw [hval, hlog]
    cases del with
    | false => exact ⟨hall, .stays, rfl⟩
    | true => exact ⟨hall, .leaves fd i hfile, rfl⟩

theorem turned_msg (ev : Option FdEvent) (ok : Bool) :
    ∃ i, (i = s.accepted ∨ i ∈ s.clients) ∧ Turned s i (s.connPollForMsg ev ok) := by
  have hgroup := (h.group s.fields.fdClientGroup).mpr rfl
  unfold connPollForMsg
  cases hev : ev.filter fun ev => ev.fd ∈ s.process.files.watched with
  | none => exact ⟨_, Or.inl rfl, by simpa [Use.Right] using hgroup, .stays, rfl, rfl⟩
  | some ev =>
    obtain ⟨-, hw⟩ := Option.filter_eq_some_iff.mp hev
    obtain ⟨i, hfile, hi⟩ := h.file ev.fd (of_decide_eq_true hw)
    have hdata : (s.inputHandle ev.fd ev.input).All (Use.Io i) := by
      cases ev.input with
      | none => exact Logged.all_pure _
      | some r => exact (dataEventHandle_io hfile s.conn r).1
    obtain ⟨hall, hmoved, hblocks⟩ := hangup_moves h hfile ev.hangup
    refine ⟨i, Or.inr hi, ?_, ?_, rfl, hblocks⟩
    · simp only [Logged.all_bind, Logged.all_tell, Logged.all_pure, and_true]
      exact ⟨hgroup, fun u hu => (hdata u hu).1, hall⟩
    · simp only [Logged.log_bind, Logged.log_tell, Logged.log_pure, List.append_nil,
        closedClients_append, closedClients_io hdata, List.nil_append]
      exact hmoved

omit h in
theorem turned_opens (fd : Nat) (i : Client) : Turned s i (pure (s.opens fd, [], 0)) := by
  unfold opens
  by_cases hfd : s.process.files.unused fd = true
  · rw [if_pos hfd]
    exact ⟨Logged.all_pure _, .opens fd hfd, rfl, rfl⟩
  · rw [if_neg hfd]
    exact ⟨Logged.all_pure _, .stays, rfl, rfl⟩

omit h in
theorem turned_closes (fd : Nat) (i : Client) : Turned s i (pure (s.closes fd, [], 0)) := by
  unfold closes
  by_cases hfd : s.process.files.file fd = some .other
  · rw [if_pos hfd]
    exact ⟨Logged.all_pure _, .closes fd hfd, rfl, rfl⟩
  · rw [if_neg hfd]
    exact ⟨Logged.all_pure _, .stays, rfl, rfl⟩

theorem turned (t : FdTurn) :
    ∃ i, (i = s.accepted ∨ i ∈ s.clients) ∧ Turned s i (s.step t) := by
  cases t with
  | pollForConn fd again add welcome prompt =>
    exact ⟨_, Or.inl rfl, turned_conn h fd again add welcome prompt⟩
  | pollForMsg ev ok => exact turned_msg h ev ok
  | opens fd => exact ⟨_, Or.inl rfl, turned_opens fd _⟩
  | closes fd => exact ⟨_, Or.inl rfl, turned_closes fd _⟩

/-! ### The invariant -/

theorem joins_clients {fd : Nat} (hfd : s.process.files.unused fd) :
    ((s.process.files.put fd (.client s.accepted)).watch fd).Kept File.client? ∧
      ((s.process.files.put fd (.client s.accepted)).watch fd).items File.client? =
        s.accepted :: s.clients := by
  apply h.kept.join (f := .client s.accepted) hfd rfl
  intro hi
  exact Nat.lt_irrefl _ (h.below _ hi)

theorem leaves_clients {fd : Nat} {i : Client} (hf : s.process.files.file fd = some (.client i)) :
    (s.process.files.close fd).Kept File.client? ∧
      (s.process.files.close fd).items File.client? = s.clients.erase i :=
  h.kept.leave (item_client_iff.mpr hf)

theorem Moved.clients {fs : Files File} {n : Client} {gone : List Client} (hm : Moved s fs n gone) :
    fs.Kept File.client? ∧ (gone = [] ∧ n = s.accepted ∧ fs.items File.client? = s.clients ∨
      gone = [] ∧ n = s.accepted + 1 ∧ fs.items File.client? = s.accepted :: s.clients ∨
      gone = [s.accepted] ∧ n = s.accepted + 1 ∧ fs.items File.client? = s.clients ∨
      ∃ i ∈ s.clients, gone = [i] ∧ n = s.accepted ∧ fs.items File.client? = s.clients.erase i) := by
  cases hm with
  | stays => exact ⟨h.kept, Or.inl ⟨rfl, rfl, rfl⟩⟩
  | refused => exact ⟨h.kept, Or.inr (Or.inr (Or.inl ⟨rfl, rfl, rfl⟩))⟩
  | joins fd hfd =>
    obtain ⟨hkept, hitems⟩ := joins_clients h hfd
    exact ⟨hkept, Or.inr (Or.inl ⟨rfl, rfl, hitems⟩)⟩
  | leaves fd i hf =>
    obtain ⟨hkept, hitems⟩ := leaves_clients h hf
    have hi : i ∈ s.clients := (Files.mem_items h.kept).mpr ⟨fd, item_client_iff.mpr hf⟩
    exact ⟨hkept, Or.inr (Or.inr (Or.inr ⟨i, hi, rfl, rfl, hitems⟩))⟩
  | opens fd hfd =>
    obtain ⟨hkept, hitems⟩ := h.kept.put_other (f := .other) (Files.item_unused hfd) rfl
    exact ⟨hkept, Or.inl ⟨rfl, rfl, hitems⟩⟩
  | closes fd hf =>
    have hitem : s.process.files.item File.client? fd = none := by simp [Files.item, hf, File.client?]
    obtain ⟨hkept, hitems⟩ := h.kept.close_other hitem
    exact ⟨hkept, Or.inl ⟨rfl, rfl, hitems⟩⟩

omit h in
theorem Moved.own {fs : Files File} {n : Client} {gone : List Client} (hm : Moved s fs n gone)
    {f : File} (hother : .other ≠ f) (hclient : ∀ i, .client i ≠ f) (fd : Nat) :
    fs.file fd = some f ↔ s.process.files.file fd = some f := by
  cases hm with
  | stays => rfl
  | refused => rfl
  | joins x hx => exact Files.put_iff hx (hclient _)
  | leaves x i hx =>
    exact Files.close_iff (by rw [hx]; exact fun he => hclient i (Option.some.inj he))
  | opens x hx => exact Files.put_iff hx hother
  | closes x hx => exact Files.close_iff (by rw [hx]; exact fun he => hother (Option.some.inj he))

theorem Turned.sound {i : Client} {m : Logged Use (PanelProcess × List FdCall × Int)}
    (hm : Turned s i m) : m.value.1.Sound := by
  obtain ⟨hkept, hclients⟩ := Moved.clients h hm.moved
  refine ⟨hkept, fun fd => ?_, fun fd => ?_, fun j hj => ?_⟩
  · rw [hm.fields, ← h.server fd]
    exact hm.moved.own (by simp) (by simp) fd
  · rw [hm.fields, ← h.group fd]
    exact hm.moved.own (by simp) (by simp) fd
  · change j ∈ m.value.1.process.files.items File.client? at hj
    have hbelow := h.below
    rcases hclients with ⟨-, hn, hc⟩ | ⟨-, hn, hc⟩ | ⟨-, hn, hc⟩ | ⟨k, -, -, hn, hc⟩
    · rw [hn]
      exact hbelow j (hc ▸ hj)
    · rw [hn]
      rw [hc] at hj
      rcases List.mem_cons.mp hj with rfl | hj
      · exact Nat.lt_succ_self _
      · exact Nat.lt_succ_of_lt (hbelow j hj)
    · rw [hn]
      exact Nat.lt_succ_of_lt (hbelow j (hc ▸ hj))
    · rw [hn]
      exact hbelow j (List.mem_of_mem_erase (hc ▸ hj))

end PanelProcess

/-! ## From `conn_init` to `conn_free` -/

/-- The files of the panel that are no client's. -/
def IsPanel (f : File) : Prop := f = .server ∨ f = .group

section
variable {p : Process} {c : ConnFields}

/-- Of the blocks `conn_init` got, all but those of `gone` are allocated. -/
def Process.Holds (p : Process) (c : ConnFields) (gone : List Block) : Prop :=
  p.blocks = connBlocks.filter fun b => c.ptr b && !gone.contains b

theorem connBlocks_nodup : connBlocks.Nodup := by decide

theorem mem_connBlocks (b : Block) : b ∈ connBlocks := by cases b <;> decide

theorem free_holds {gone : List Block} {b : Block} (h : p.Holds c gone) (hb : b ∉ gone) :
    (p.free c b).value.Holds c (b :: gone) ∧ (p.free c b).All (Use.Right IsPanel) ∧
      (p.free c b).value.files = p.files := by
  unfold Process.Holds at h ⊢
  unfold Process.free
  by_cases hptr : c.ptr b = true
  · rw [if_pos hptr, Logged.all_tell, Logged.value_tell]
    refine ⟨?_, ?_, rfl⟩
    · show p.blocks.erase b = _
      rw [h, (connBlocks_nodup.filter _).erase_eq_filter, List.filter_filter]
      refine List.filter_congr fun x _ => ?_
      by_cases hx : x = b
      · subst hx
        simp
      · simp [hx]
    · show decide (b ∈ p.blocks) = true
      rw [h]
      simp [mem_connBlocks, hptr, hb]
  · rw [if_neg hptr]
    refine ⟨?_, Logged.all_pure _, rfl⟩
    rw [Logged.value_pure, h]
    refine List.filter_congr fun x _ => ?_
    by_cases hx : x = b
    · subst hx
      simp [hptr]
    · simp [hx]

theorem freeMembers_ends (h : p.Holds c []) : (p.freeMembers c).value.blocks = [.buf].filter c.ptr ∧
    (p.freeMembers c).All (Use.Right IsPanel) ∧ (p.freeMembers c).value.files = p.files := by
  obtain ⟨h₁, ha₁, hf₁⟩ := free_holds (b := .msgOut) h (by simp)
  obtain ⟨h₂, ha₂, hf₂⟩ := free_holds (b := .msgIn) h₁ (by simp)
  obtain ⟨h₃, ha₃, hf₃⟩ := free_holds (b := .prompt) h₂ (by simp)
  obtain ⟨h₄, ha₄, hf₄⟩ := free_holds (b := .welcome) h₃ (by simp)
  obtain ⟨h₅, ha₅, hf₅⟩ := free_holds (b := .conn) h₄ (by simp)
  unfold Process.freeMembers
  simp only [Logged.all_bind, Logged.value_bind]
  refine ⟨h₅.trans ?_, ⟨ha₁, ha₂, ha₃, ha₄, ha₅⟩, ?_⟩
  · simp [connBlocks, List.filter]
  · rw [hf₅, hf₄, hf₃, hf₂, hf₁]

/-- What `conn_init` does when it gives up after `socket`. -/
theorem giveUp {fs : Files File} {env : InitEnv} {fd : Nat} (hfd : fs.unused fd) (hw : fs.watched = [])
    (hp : p.files = fs.put fd .server) (hb : p.Holds ⟨env.calloc, 0, 0⟩ []) :
    (p.connFree ⟨env.calloc, 0, 0⟩).All (Use.Right IsPanel) ∧
      ((p.connFree ⟨env.calloc, 0, 0⟩).value.close fd).All (Use.Right IsPanel) ∧
      ((p.connFree ⟨env.calloc, 0, 0⟩).value.close fd).value = ⟨fs, [.buf].filter env.calloc⟩ := by
  obtain ⟨hblocks, hall, hfiles⟩ := freeMembers_ends hb
  change (p.connFree ⟨env.calloc, 0, 0⟩).value.blocks = _ at hblocks
  change (p.connFree ⟨env.calloc, 0, 0⟩).value.files = _ at hfiles
  rw [hp] at hfiles
  have hfile : (p.connFree ⟨env.calloc, 0, 0⟩).value.files.file fd = some .server := by
    rw [hfiles]
    exact Files.put_self
  rw [close_file hfile (by simp)]
  refine ⟨hall, ?_, ?_⟩
  · rw [Logged.all_tell]
    exact ⟨_, rfl, Or.inl rfl⟩
  · rw [Logged.value_tell, hfiles, hblocks, Files.put_close hfd (by simp [hw])]

/-- `conn_init` leaves nothing open when it fails, and of the memory only `buf`. -/
structure InitEnd (fs : Files File) (env : InitEnv) (m : Logged Use (Process × Option ConnFields)) :
    Prop where
  right : m.All (Use.Right IsPanel)
  failed : m.value.2 = none →
    m.value.1 = ⟨fs, if env.calloc .conn then [.buf].filter env.calloc else []⟩
  done : ∀ c, m.value.2 = some c → (∀ b, env.calloc b = true) ∧ c.ptr = env.calloc ∧
    fs.unused c.fdServer ∧ (fs.put c.fdServer .server).unused c.fdClientGroup ∧
    m.value.1 = ⟨(fs.put c.fdServer .server).put c.fdClientGroup .group, connBlocks⟩

theorem InitEnd.after {fs : Files File} {env : InitEnv} {u : Use}
    {m : Logged Use (Process × Option ConnFields)} (h : InitEnd fs env m) (hu : u.Right IsPanel) :
    InitEnd fs env (Logged.tell u () >>= fun _ => m) := by
  refine ⟨?_, h.failed, h.done⟩
  rw [Logged.all_bind, Logged.all_tell]
  exact ⟨hu, h.right⟩

theorem connInit_ends {fs : Files File} (h : Elsewhere fs) (env : InitEnv) :
    InitEnd fs env (connInit fs env) := by
  have hholds : ∀ fs', Process.Holds ⟨fs', connBlocks.filter env.calloc⟩ ⟨env.calloc, 0, 0⟩ [] := by
    intro fs'
    simp [Process.Holds]
  unfold connInit
  by_cases hconn : env.calloc .conn = false
  · rw [if_pos hconn]
    exact ⟨Logged.all_pure _, fun _ => by simp [hconn], fun c hc => by cases hc⟩
  have hconn := Bool.eq_true_of_not_eq_false hconn
  have early : InitEnd fs env (Process.connFree ⟨fs, connBlocks.filter env.calloc⟩
      ⟨env.calloc, 0, 0⟩ >>= fun p => pure (p, none)) := by
    obtain ⟨hblocks, hall, hfiles⟩ := freeMembers_ends (hholds fs)
    refine ⟨?_, fun _ => ?_, fun c hc => by cases hc⟩
    · rw [Logged.all_bind]
      exact ⟨hall, Logged.all_pure _⟩
    · rw [hconn, if_pos rfl]
      exact Process.ext hfiles hblocks
  have late : ∀ {fd}, fs.unused fd → InitEnd fs env
      (Process.connFree ⟨fs.put fd .server, connBlocks.filter env.calloc⟩ ⟨env.calloc, 0, 0⟩ >>=
        fun p => p.close fd >>= fun p => pure (p, none)) := by
    intro fd hfd
    obtain ⟨hfree, hclose, hval⟩ := giveUp hfd h.1 rfl (hholds _)
    refine ⟨?_, fun _ => ?_, fun c hc => by cases hc⟩
    · rw [Logged.all_bind, Logged.all_bind]
      exact ⟨hfree, hclose, Logged.all_pure _⟩
    · rw [hconn, if_pos rfl]
      exact hval
  rw [hconn, if_neg (by simp)]
  by_cases hcalloc : connBlocks.all env.calloc = false
  · rw [if_pos hcalloc]
    exact early
  rw [if_neg hcalloc]
  cases hs : givenOut fs env.socket with
  | none => exact early
  | some fd =>
    obtain ⟨-, hfd⟩ := Option.filter_eq_some_iff.mp hs
    have hserver : (fs.put fd .server).file fd = some .server := Files.put_self
    refine InitEnd.after ?_ hserver
    by_cases hbind : env.bind = false
    · rw [if_pos hbind]
      exact late hfd
    rw [if_neg hbind]
    refine InitEnd.after ?_ hserver
    by_cases hlisten : env.listen = false
    · rw [if_pos hlisten]
      exact late hfd
    rw [if_neg hlisten]
    cases hg : givenOut (fs.put fd .server) env.epollCreate with
    | none => exact late hfd
    | some g =>
      obtain ⟨-, hgfd⟩ := Option.filter_eq_some_iff.mp hg
      have hall := List.all_eq_true.mp (Bool.eq_true_of_not_eq_false hcalloc)
      refine ⟨Logged.all_pure _, fun hc => (by cases hc), fun c hc => ?_⟩
      cases hc
      refine ⟨fun b => hall b (mem_connBlocks b), rfl, hfd, hgfd, ?_⟩
      exact Process.ext rfl (List.filter_eq_self.mpr hall)

end

theorem connInit_none {fs : Files File} {env : InitEnv} : (connInit fs env).value.2 = none ↔
    (∃ b, env.calloc b = false) ∨ env.bind = false ∨ env.listen = false ∨
      ∀ fd, givenOut fs env.socket = some fd →
        givenOut (fs.put fd .server) env.epollCreate = none := by
  unfold connInit
  by_cases hconn : env.calloc .conn = false
  · simp only [hconn, if_true]
    exact iff_of_true rfl (Or.inl ⟨_, hconn⟩)
  rw [if_neg hconn]
  by_cases hcalloc : connBlocks.all env.calloc = false
  · obtain ⟨b, -, hb⟩ := List.all_eq_false.mp hcalloc
    rw [if_pos hcalloc]
    exact iff_of_true rfl (Or.inl ⟨b, Bool.eq_false_of_not_eq_true hb⟩)
  have hall := List.all_eq_true.mp (Bool.eq_true_of_not_eq_false hcalloc)
  have hno : ¬∃ b, env.calloc b = false := fun ⟨b, hb⟩ => by
    rw [hall b (mem_connBlocks b)] at hb
    cases hb
  rw [if_neg hcalloc]
  cases givenOut fs env.socket with
  | none => exact iff_of_true rfl (Or.inr (Or.inr (Or.inr fun fd he => by cases he)))
  | some fd =>
    simp only [Logged.value_bind]
    by_cases hbind : env.bind = false
    · simp [hbind]
    · by_cases hlisten : env.listen = false
      · simp [hbind, hlisten]
      · simp only [hbind, hlisten, hno, false_or]
        cases hg : givenOut (fs.put fd .server) env.epollCreate with
        | none => simp [hg]
        | some g => simp [hg]

/-- `conn_init` fails exactly if one of its calls does; then each file and block it got is given back
once, except `buf`. -/
theorem connInit_failed {fs : Files File} (h : Elsewhere fs) (env : InitEnv) :
    (connInit fs env).All (Use.Right IsPanel) ∧
    ((connInit fs env).value.2 = none ↔
      (∃ b, env.calloc b = false) ∨ env.bind = false ∨ env.listen = false ∨
        ∀ fd, givenOut fs env.socket = some fd →
          givenOut (fs.put fd .server) env.epollCreate = none) ∧
    ((connInit fs env).value.2 = none → (connInit fs env).value.1.files = fs ∧
      (connInit fs env).value.1.blocks =
        if env.calloc .conn then [.buf].filter env.calloc else []) := by
  have hends := connInit_ends h env
  refine ⟨hends.right, connInit_none, fun hnone => ?_⟩
  rw [hends.failed hnone]
  exact ⟨rfl, rfl⟩

/-! ## Over a run -/

section
variable {s : PanelProcess} {tr : List fdMachine.Event}

/-- With what `conn_init` set up, which no turn changes. -/
structure PanelProcess.Intact (s : PanelProcess) : Prop extends s.Sound where
  ptr : ∀ b, s.fields.ptr b = true
  blocks : s.process.blocks = connBlocks

theorem init_intact (h : fdMachine.init s) : s.Intact ∧ s.clients = [] ∧ s.accepted = 0 := by
  obtain ⟨fs, env, hfs, hval, -, haccepted⟩ := h
  obtain ⟨hcalloc, hptr, hserver, hgroup, hprocess⟩ := (connInit_ends hfs env).done s.fields
    (by rw [hval])
  have hprocess : s.process = ⟨_, connBlocks⟩ := (congrArg Prod.fst hval).symm.trans hprocess
  have hitem : ∀ fd, fs.item File.client? fd = none := by
    intro fd
    unfold Files.item
    cases hf : fs.file fd with
    | none => rfl
    | some f =>
      rw [hfs.2 fd f hf]
      rfl
  have hstart : fs.Kept File.client? :=
    ⟨by simp [hfs.1], fun fd => by simp [hfs.1, hitem], fun ha => by simp [hitem] at ha⟩
  have hnew : ∀ {f : File}, f ≠ .other → ∀ fd, fs.file fd ≠ some f := fun hf fd he =>
    hf (hfs.2 fd _ he)
  obtain ⟨hkept, hitems⟩ := hstart.put_other (f := .server) (Files.item_unused hserver) rfl
  obtain ⟨hkept, hitems'⟩ := hkept.put_other (f := .group) (Files.item_unused hgroup) rfl
  have hclients : s.clients = [] := by
    unfold PanelProcess.clients
    rw [hprocess, hitems', hitems, Files.items, hfs.1]
    rfl
  refine ⟨⟨⟨by rw [hprocess]; exact hkept, fun fd => ?_, fun fd => ?_, by simp [hclients]⟩,
    by rw [hptr]; exact hcalloc, by rw [hprocess]⟩, hclients, haccepted⟩
  · rw [hprocess, Files.put_iff hgroup (by simp), Files.put_new (hnew (by simp))]
  · have hnew' : ∀ fd, (fs.put s.fields.fdServer .server).file fd ≠ some .group := fun fd he =>
      hnew (by simp) fd ((Files.put_iff hserver (by simp)).mp he)
    rw [hprocess, Files.put_new hnew']

theorem event_turned {e : fdMachine.Event} (h : e.pre.Sound) :
    ∃ i, (i = e.pre.accepted ∨ i ∈ e.pre.clients) ∧ (∀ u ∈ e.out.uses, u.Right (· = .client i)) ∧
      PanelProcess.Moved e.pre e.post.process.files e.post.accepted (closedClients e.out.uses) ∧
      e.post.fields = e.pre.fields ∧ e.post.process.blocks = e.pre.process.blocks ∧ e.post.Sound := by
  obtain ⟨hpost, hout⟩ := Prod.mk.inj (Option.some.inj e.fired)
  obtain ⟨i, hi, ht⟩ := PanelProcess.turned h e.input
  have hsound := ht.sound h
  rw [← hout, ← hpost]
  exact ⟨i, hi, ht.right, ht.moved, ht.fields, ht.blocks, hsound⟩

theorem run_intact (h : Machine.Run tr s) : s.Intact := by
  refine Machine.Run.inv (fun s hs => (init_intact hs).1) (fun e he => ?_) h
  obtain ⟨-, -, -, -, hfields, hblocks, hsound⟩ := event_turned he.toSound
  exact ⟨hsound, by rw [hfields]; exact he.ptr, hblocks.trans he.blocks⟩

theorem count_next {i n a b : Nat} (h : a + b = if i < n then 1 else 0) (hb : ¬i < n → b = 0) :
    a + 0 + (b + if n = i then 1 else 0) = if i < n + 1 then 1 else 0 := by
  by_cases hi : n = i
  · subst hi
    simp at h hb ⊢
    omega
  · have hlt : i < n + 1 ↔ i < n := by omega
    simp only [hi, hlt, if_false]
    exact h

/-- Each client accepted is still there, or its connection has been closed once. -/
theorem run_closed (h : Machine.Run tr s) (i : Client) :
    (tr.flatMap fun e => closedClients e.out.uses).count i + s.clients.count i =
      if i < s.accepted then 1 else 0 := by
  refine Machine.Run.induct (P := fun tr s => (tr.flatMap fun e => closedClients e.out.uses).count i +
    s.clients.count i = if i < s.accepted then 1 else 0) (fun s hs => ?_) (fun tr e hr ih => ?_) h
  · obtain ⟨-, hclients, haccepted⟩ := init_intact hs
    simp [hclients, haccepted]
  · have hsound := (run_intact hr).toSound
    obtain ⟨-, -, -, hmoved, -⟩ := event_turned hsound
    obtain ⟨-, hcases⟩ := PanelProcess.Moved.clients hsound hmoved
    change _ ∧ _ ∧ e.post.clients = _ ∨ _ ∧ _ ∧ e.post.clients = _ ∨ _ ∧ _ ∧ e.post.clients = _ ∨
      (∃ i ∈ _, _ ∧ _ ∧ e.post.clients = _) at hcases
    rw [List.flatMap_append, List.flatMap_singleton, List.count_append]
    have hold : ¬i < e.pre.accepted → e.pre.clients.count i = 0 := fun hi =>
      List.count_eq_zero.mpr fun hmem => hi (hsound.below i hmem)
    rcases hcases with ⟨hgone, hn, hc⟩ | ⟨hgone, hn, hc⟩ | ⟨hgone, hn, hc⟩ | ⟨j, hj, hgone, hn, hc⟩
    · rw [hgone, hn, hc]
      simpa using ih
    · rw [hgone, hn, hc, List.count_nil, List.count_cons]
      simp only [beq_iff_eq]
      exact count_next ih hold
    · rw [hgone, hn, hc, List.count_singleton]
      simp only [beq_iff_eq]
      have hnext := count_next ih hold
      omega
    · rw [hgone, hn, hc, List.count_singleton, List.count_erase, ← ih]
      have hpos := List.count_pos_iff.mpr hj
      by_cases hji : j = i
      · subst hji
        simp
        omega
      · simp [hji]

theorem closeSet_ends {p : Process} {fd : Nat} {f : File} (hpanel : IsPanel f)
    (h : p.files.file fd = some f) : (p.closeSet fd).All (Use.Right IsPanel) ∧
      (p.closeSet fd).value.blocks = p.blocks ∧ ∀ x g, (p.closeSet fd).value.files.file x = some g ↔
        p.files.file x = some g ∧ ¬(x = fd ∧ fd ≠ 0) := by
  unfold Process.closeSet
  by_cases h0 : fd = 0
  · rw [if_neg (not_not.mpr h0)]
    exact ⟨Logged.all_pure _, rfl, fun x g => by simp [h0]⟩
  · rw [if_pos h0]
    unfold Process.close
    rw [Logged.all_tell, Logged.value_tell]
    refine ⟨⟨f, h, hpanel⟩, rfl, fun x g => ?_⟩
    show (p.files.close fd).file x = some g ↔ _
    by_cases hx : x = fd
    · subst hx
      simp [h0]
    · rw [Files.close_ne hx]
      simp [hx]

/-- `conn_free` leaves the clients' files open, and the panel's where they are number 0. -/
theorem connFree_ends (h : s.Intact) : (s.process.connFree s.fields).All (Use.Right IsPanel) ∧
    (s.process.connFree s.fields).value.blocks = [.buf] ∧
    ∀ x g, (s.process.connFree s.fields).value.files.file x = some g ↔
      s.process.files.file x = some g ∧ ¬(IsPanel g ∧ x ≠ 0) := by
  obtain ⟨hall₁, hblocks₁, hfile₁⟩ := closeSet_ends (Or.inr rfl) ((h.group _).mpr rfl)
  have hne : s.fields.fdServer ≠ s.fields.fdClientGroup := by
    intro he
    have hserver := (h.server _).mpr rfl
    rw [he, (h.group _).mpr rfl] at hserver
    cases hserver
  have hserver : (s.process.closeSet s.fields.fdClientGroup).value.files.file s.fields.fdServer =
      some .server := (hfile₁ _ _).mpr ⟨(h.server _).mpr rfl, fun hx => hne hx.1⟩
  obtain ⟨hall₂, hblocks₂, hfile₂⟩ := closeSet_ends (Or.inl rfl) hserver
  have hholds : ((s.process.closeSet s.fields.fdClientGroup).value.closeSet
      s.fields.fdServer).value.Holds s.fields [] := by
    unfold Process.Holds
    rw [hblocks₂, hblocks₁, h.blocks]
    exact (List.filter_eq_self.mpr fun b _ => by simp [h.ptr]).symm
  obtain ⟨hblocks₃, hall₃, hfiles₃⟩ := freeMembers_ends hholds
  unfold Process.connFree
  simp only [Logged.all_bind, Logged.value_bind]
  refine ⟨⟨hall₁, hall₂, hall₃⟩, by rw [hblocks₃]; simp [h.ptr], fun x g => ?_⟩
  rw [hfiles₃, hfile₂, hfile₁, and_assoc]
  refine and_congr_right fun hf => ?_
  have hpanel : IsPanel g ↔ x = s.fields.fdServer ∨ x = s.fields.fdClientGroup := by
    rw [← h.server, ← h.group, hf, Option.some.injEq, Option.some.injEq]
    rfl
  rw [hpanel]
  by_cases hs : x = s.fields.fdServer
  · subst hs
    simp [hne]
  · by_cases hg : x = s.fields.fdClientGroup
    · subst hg
      simp [hs]
    · simp [hs, hg]

/-- What becomes of the files and of the memory in a run and with `conn_free` after it. -/
structure Balanced (tr : List fdMachine.Event) (s : PanelProcess) : Prop where
  right : ∀ e ∈ tr, ∃ i, (i = e.pre.accepted ∨ i ∈ e.pre.clients) ∧
    ∀ u ∈ e.out.uses, u.Right (· = .client i)
  closed : ∀ i, (tr.flatMap fun e => closedClients e.out.uses).count i =
    if i < s.accepted ∧ i ∉ s.clients then 1 else 0
  clients : ∀ i, i ∈ s.clients ↔ ∃! fd, s.process.files.file fd = some (.client i)
  freed : (s.process.connFree s.fields).All (Use.Right IsPanel)
  memory : (s.process.connFree s.fields).value.blocks = [.buf]
  files : ∀ fd f, (s.process.connFree s.fields).value.files.file fd = some f ↔
    s.process.files.file fd = some f ∧ ¬(IsPanel f ∧ fd ≠ 0)

/-- In every run each call finds a file the panel has opened and not closed, in one turn always the
same client's; each client accepted is closed once, or still there; and `conn_free` leaves just the
clients, the panel's own files where their number is 0, and `buf`. -/
theorem descriptors (h : Machine.Run tr s) : Balanced tr s := by
  have hs := run_intact h
  obtain ⟨hfreed, hmemory, hfiles⟩ := connFree_ends hs
  refine ⟨fun e he => ?_, fun i => ?_, fun i => ?_, hfreed, hmemory, hfiles⟩
  · obtain ⟨tr₁, hr⟩ := h.reached he
    obtain ⟨i, hi, hright, -⟩ := event_turned (run_intact hr).toSound
    exact ⟨i, hi, hright⟩
  · have hcount := run_closed h i
    by_cases hi : i ∈ s.clients
    · have hpos := List.count_pos_iff.mpr hi
      simp only [hi, not_true_eq_false, and_false, if_false]
      split at hcount <;> omega
    · rw [List.count_eq_zero.mpr hi] at hcount
      simpa [hi] using hcount
  · have hmem := Files.mem_items (i := i) hs.kept
    simp only [item_client_iff] at hmem
    refine hmem.trans ⟨fun ⟨fd, hfd⟩ => ⟨fd, hfd, fun x hx => ?_⟩, fun ⟨fd, hfd, _⟩ => ⟨fd, hfd⟩⟩
    exact hs.kept.inj (item_client_iff.mpr hx) (item_client_iff.mpr hfd)

/-! ## Clients by name -/

def PanelProcess.panel (s : PanelProcess) : Panel Byte := ⟨s.conn, s.clients, s.accepted⟩

/-- Whom a call of `cli_process` is for. -/
def PanelProcess.call? (s : PanelProcess) (c : FdCall) : Option (Call Byte) :=
  (s.process.files.item File.client? c.fdClient).map (⟨·, c.msgIn⟩)

/-- The turn of the panel with its clients by name; there is none where `epoll_wait` reports
nothing and where another part of the process takes its turn. -/
def panelEvent (e : fdMachine.Event) : Option (PanelTurn × PanelOut Byte) :=
  let out : PanelOut Byte := ⟨e.out.calls.filterMap e.pre.call?, e.out.status⟩
  match e.input with
  | .pollForConn fd _ _ _ _ =>
    some (.pollForConn (givenOut e.pre.process.files fd).isSome (e.out.status = 0), out)
  | .pollForMsg ev _ =>
    (ev.filter fun ev => ev.fd ∈ e.pre.process.files.watched).bind fun ev =>
      (e.pre.process.files.item File.client? ev.fd).map fun i =>
        (.pollForMsg ⟨i, ev.input, ev.hangup⟩, out)
  | .opens _ => none
  | .closes _ => none

theorem map_mark (r : ReadResult Byte) (i : Client) : r.map (mark i) = r := by
  cases r with
  | error again => rfl
  | bytes rs prompt =>
    have hid : (fun r : Received Byte => r.map (mark i)) = id := rfl
    simp [ReadResult.map, hid]

theorem panel_conn (h : s.Sound) (fd : Option Nat) (again add welcome prompt : Bool) :
    let x := (s.connPollForConn fd again add welcome prompt).value
    connPollForConn s.panel (givenOut s.process.files fd).isSome (x.2.2 = 0) =
      (x.1.panel, ⟨x.2.1.filterMap s.call?, x.2.2⟩) := by
  cases hfd : givenOut s.process.files fd with
  | none =>
    unfold PanelProcess.connPollForConn
    rw [hfd]
    cases again <;> rfl
  | some a =>
    obtain ⟨-, hunused, hends⟩ := PanelProcess.conn_ends h hfd again add welcome prompt
    rcases hends with ⟨hval, -⟩ | ⟨hval, -⟩
    · rw [hval]
      rfl
    · rw [hval]
      have hc := (PanelProcess.joins_clients h hunused).2
      show (_, _) = (_, _)
      simp [PanelProcess.panel, PanelProcess.clients, hc]

theorem panel_hangup (h : s.Sound) {fd : Nat} {i : Client}
    (hfile : s.process.files.file fd = some (.client i)) (hangup : Option (Bool × Bool)) :
    ((s.hangupHandle fd hangup).value.1.files.items File.client?,
      (s.hangupHandle fd hangup).value.2) = hangupHandle s.clients i hangup := by
  cases hangup with
  | none => rfl
  | some x =>
    obtain ⟨del, close⟩ := x
    obtain ⟨-, hval, -⟩ := controlEventHandle_ends ((h.group _).mpr rfl) hfile h.kept.nodup del close
    unfold PanelProcess.hangupHandle
    rw [hval]
    cases del with
    | false => rfl
    | true => exact congrArg (·, _) (PanelProcess.leaves_clients h hfile).2

theorem panel_msg (h : s.Sound) {ev : FdEvent} {i : Client} (ok : Bool)
    (hw : ev.fd ∈ s.process.files.watched) (hfile : s.process.files.file ev.fd = some (.client i)) :
    let x := (s.connPollForMsg (some ev) ok).value
    connPollForMsg s.panel ⟨i, ev.input, ev.hangup⟩ =
        (x.1.panel, ⟨x.2.1.filterMap s.call?, x.2.2⟩) ∧ ∀ c ∈ x.2.1, c.fdClient = ev.fd := by
  have hi : i ∈ s.clients := (Files.mem_items h.kept).mpr ⟨ev.fd, item_client_iff.mpr hfile⟩
  have hdata : (s.inputHandle ev.fd ev.input).value = inputHandle s.conn i ev.input := by
    cases ev.input with
    | none => rfl
    | some r =>
      show (s.process.dataEventHandle ev.fd s.conn r).value = dataEventHandle s.conn (r.map (mark i))
      rw [map_mark]
      exact (dataEventHandle_io hfile s.conn r).2
  have hcontrol := panel_hangup h hfile ev.hangup
  have hcall : ∀ l : List (List Byte),
      (l.map (FdCall.mk ev.fd ·)).filterMap s.call? = l.map (Call.mk i ·) := by
    intro l
    have hone : s.call? ∘ (FdCall.mk ev.fd ·) = some ∘ (Call.mk i ·) := by
      funext m
      simp [PanelProcess.call?, item_client_iff.mpr hfile]
    rw [List.filterMap_map, hone, List.filterMap_eq_map]
  have hpanel : i ∈ s.panel.clients := hi
  unfold PanelProcess.connPollForMsg connPollForMsg
  rw [if_pos hpanel]
  simp only [Option.filter_some, hw, decide_true, if_true, Logged.value_bind, Logged.value_pure,
    hdata, hcall]
  have hclients : s.panel.clients = s.clients := rfl
  simp only [hclients, ← hcontrol]
  exact ⟨rfl, by simp⟩

theorem panel_other (h : s.Sound) (fd : Nat) :
    (s.opens fd).panel = s.panel ∧ (s.closes fd).panel = s.panel := by
  unfold PanelProcess.opens PanelProcess.closes
  constructor
  · by_cases hfd : s.process.files.unused fd = true
    · rw [if_pos hfd]
      have hc := (h.kept.put_other (f := .other) (Files.item_unused hfd) rfl).2
      simp [PanelProcess.panel, PanelProcess.clients, hc]
    · rw [if_neg hfd]
  · by_cases hf : s.process.files.file fd = some .other
    · rw [if_pos hf]
      have hitem : s.process.files.item File.client? fd = none := by
        simp [Files.item, hf, File.client?]
      simp [PanelProcess.panel, PanelProcess.clients, (h.kept.close_other hitem).2]
    · rw [if_neg hf]

/-- A turn of the process is one of the panel or one that it does not see. -/
theorem event_panel {e : fdMachine.Event} (h : e.pre.Sound) :
    (∀ c ∈ e.out.calls, e.pre.call? c ≠ none) ∧
    match panelEvent e with
    | none => e.post.panel = e.pre.panel
    | some (t, out) => panelStep e.pre.panel t = (e.post.panel, out) := by
  obtain ⟨hpost, hout⟩ := Prod.mk.inj (Option.some.inj e.fired)
  unfold panelEvent
  rw [← hpost, ← hout]
  cases e.input with
  | pollForConn fd again add welcome prompt =>
    refine ⟨?_, panel_conn h fd again add welcome prompt⟩
    have hcalls : (e.pre.connPollForConn fd again add welcome prompt).value.2.1 = [] := by
      unfold PanelProcess.connPollForConn
      cases givenOut e.pre.process.files fd <;> rfl
    show ∀ c ∈ (e.pre.connPollForConn fd again add welcome prompt).value.2.1, _
    simp [hcalls]
  | pollForMsg ev ok =>
    cases hev : ev.filter fun ev => ev.fd ∈ e.pre.process.files.watched with
    | none =>
      have hval : (e.pre.connPollForMsg ev ok).value = (e.pre, [], if ok then 0 else -1) := by
        unfold PanelProcess.connPollForMsg
        rw [hev]
        rfl
      simp [PanelProcess.step, hval, hev]
    | some x =>
      obtain ⟨hx, hw⟩ := Option.filter_eq_some_iff.mp hev
      have hw := of_decide_eq_true hw
      obtain ⟨i, hfile, -⟩ := PanelProcess.Sound.file h x.fd hw
      have hitem := item_client_iff.mpr hfile
      subst hx
      obtain ⟨hstep, hfd⟩ := panel_msg h ok hw hfile
      simp only [hev, Option.bind_some, hitem, Option.map_some]
      refine ⟨fun c hc => ?_, hstep⟩
      unfold PanelProcess.call?
      rw [hfd c hc, hitem]
      simp
  | opens fd => exact ⟨by simp [PanelProcess.step], (panel_other h fd).1⟩
  | closes fd => exact ⟨by simp [PanelProcess.step], (panel_other h fd).2⟩

/-- With its clients by name the panel does in every run what it does with descriptors: a
descriptor given to `cli_process` is that of the client named, whatever its number stood for before. -/
theorem panel_refines (h : Machine.Run tr s) :
    (∃ tr' : List (panelMachine Byte).Event, Machine.Run tr' s.panel ∧
      tr'.map Machine.Event.io = tr.filterMap panelEvent) ∧
    ∀ e ∈ tr, ∀ c ∈ e.out.calls, e.pre.call? c ≠ none := by
  have hsound : ∀ e ∈ tr, e.pre.Sound := fun e he =>
    let ⟨_, hr⟩ := h.reached he
    (run_intact hr).toSound
  refine ⟨?_, fun e he => (event_panel (hsound e he)).1⟩
  obtain ⟨s₀, hinit, hpath⟩ := h
  obtain ⟨tr', hpath', hio⟩ := Machine.path_shadow (N := panelMachine Byte) (f := PanelProcess.panel)
    (g := panelEvent) hpath
    (fun e he hnone => by
      have hstep := (event_panel (hsound e he)).2
      rw [hnone] at hstep
      exact hstep)
    fun e he t out hsome => by
      have hstep := (event_panel (hsound e he)).2
      rw [hsome] at hstep
      exact congrArg some hstep
  refine ⟨tr', ⟨s₀.panel, ?_, hpath'⟩, hio⟩
  obtain ⟨-, hclients, haccepted⟩ := init_intact hinit
  obtain ⟨-, -, -, -, hconn, -⟩ := hinit
  show PanelProcess.panel s₀ = Panel.start
  unfold PanelProcess.panel Panel.start
  rw [hconn, hclients, haccepted]

end

/-! ## A number that comes back -/

def stdFiles : Files File := ⟨fun fd => if fd < 3 then some .other else none, []⟩

theorem stdFiles_elsewhere : Elsewhere stdFiles := by
  refine ⟨rfl, fun fd f h => ?_⟩
  simp only [stdFiles] at h
  split at h
  · exact (Option.some.inj h).symm
  · cases h

def allSucceed : InitEnv := ⟨fun _ => true, some 3, true, true, some 4⟩

def initialised : PanelProcess :=
  ⟨(connInit stdFiles allSucceed).value.1, ⟨fun _ => true, 3, 4⟩, .empty, 0⟩

theorem initialised_init : fdMachine.init initialised :=
  ⟨stdFiles, allSucceed, stdFiles_elsewhere, rfl, rfl, rfl⟩

/-- Two clients behind number 5 in turn, between them another part's file. -/
def twoClients : List FdTurn :=
  [.pollForConn (some 5) false true true true, .pollForMsg (some ⟨5, none, some (true, true)⟩) true,
    .opens 5, .closes 5, .pollForConn (some 5) false true true true,
    .pollForMsg (some ⟨5, some (.bytes [quick newline] true), none⟩) true]

theorem connInit_failed_listen : (connInit stdFiles { allSucceed with listen := false }).value.2 = none ∧
    (connInit stdFiles { allSucceed with listen := false }).value.1.files = stdFiles ∧
    (connInit stdFiles { allSucceed with listen := false }).value.1.blocks = [.buf] := by
  obtain ⟨-, hnone, hleft⟩ := connInit_failed stdFiles_elsewhere { allSucceed with listen := false }
  have h := hnone.mpr (Or.inr (Or.inr (Or.inl rfl)))
  exact ⟨h, hleft h⟩

theorem descriptors_twoClients : ∃ (tr : List fdMachine.Event) (s : PanelProcess),
    Machine.Run tr s ∧ s.accepted = 2 ∧ s.clients = [1] ∧
      s.process.files.file 5 = some (.client 1) ∧ Balanced tr s := by
  obtain ⟨tr, s, hr, hQ⟩ := Machine.exists_run initialised_init twoClients
    (Q := fun r => r.2.accepted = 2 ∧ r.2.clients = [1] ∧
      r.2.process.files.file 5 = some (.client 1)) (by decide +kernel)
  obtain ⟨haccepted, hclients, hfile⟩ := of_decide_eq_true hQ
  exact ⟨tr, s, hr, haccepted, hclients, hfile, descriptors hr⟩

theorem panel_refines_twoClients : ∃ (tr : List fdMachine.Event) (s : PanelProcess),
    Machine.Run tr s ∧ (tr.filterMap panelEvent).map (fun x => x.2.calls.map (·.client)) =
        [[], [], [], [1]] ∧
      (∃ tr' : List (panelMachine Byte).Event, Machine.Run tr' s.panel ∧
        tr'.map Machine.Event.io = tr.filterMap panelEvent) ∧
      ∀ e ∈ tr, ∀ c ∈ e.out.calls, e.pre.call? c ≠ none := by
  obtain ⟨tr, s, hr, hQ⟩ := Machine.exists_run initialised_init twoClients
    (Q := fun r => (r.1.filterMap panelEvent).map (fun x => x.2.calls.map (·.client)) =
      [[], [], [], [1]]) (by decide +kernel)
  exact ⟨tr, s, hr, of_decide_eq_true hQ, panel_refines hr⟩

end TcpDpdk
