import TcpDpdk.Connection
import TcpDpdk.Lib.Numeral
import TcpDpdk.Parser

/-!
# Operands of a command

Addresses and ports are read by `sscanf` and `atoi`, which take what they can use and
leave the rest, and printed by `dump_connection`. `stringToIp_print` and `atoi_print`
say that what is printed is read back as it was.
-/

namespace TcpDpdk

def ascii (s : String) : List Byte := s.toList.map fun ch => BitVec.ofNat 8 ch.toNat

/-! ## Reading -/

/-- `isspace` -/
def isSpace (b : Byte) : Bool := b = 0x20 || (0x09 ≤ b && b ≤ 0x0d)

def isDigit (b : Byte) : Bool := 0x30 ≤ b && b ≤ 0x39

def digitOf (b : Byte) : Nat := b.toNat - 48

def valueOf (s : List Byte) : Nat := Numeral.value 10 (s.map digitOf)

def takeSign : List Byte → Bool × List Byte
  | [] => (false, [])
  | b :: s => if b = 0x2d then (true, s) else if b = 0x2b then (false, s) else (false, b :: s)

/-- What does not fit into a `long` becomes the nearest one that does. -/
def clampLong (v : Int) : Int := max (-2 ^ 63) (min v (2 ^ 63 - 1))

/-- `strtol` in base ten, with the text behind the number. -/
def strtol (s : List Byte) : Option (Int × List Byte) :=
  let (negative, s) := takeSign (s.dropWhile isSpace)
  let ds := s.takeWhile isDigit
  if ds = [] then none
  else some (clampLong (if negative then -valueOf ds else valueOf ds), s.dropWhile isDigit)

def atoi (s : List Byte) : BitVec 32 := BitVec.ofInt 32 (((strtol s).map (·.1)).getD 0)

/-- `%hhd` -/
def scanHhd (s : List Byte) : Option (Byte × List Byte) :=
  (strtol s).map fun (v, rest) => (BitVec.ofInt 8 v, rest)

def dot : Byte := 0x2e

def scanDot : List Byte → Option (List Byte)
  | [] => none
  | b :: s => if b = dot then some s else none

/-- `none` where the source leaves with `exit(1)`. -/
def stringToIp (s : List Byte) : Option (BitVec 32) := do
  let (a0, s) ← scanHhd s
  let s ← scanDot s
  let (a1, s) ← scanHhd s
  let s ← scanDot s
  let (a2, s) ← scanHhd s
  let s ← scanDot s
  let (a3, _) ← scanHhd s
  return a0.setWidth 32 <<< 24 ||| a1.setWidth 32 <<< 16 ||| a2.setWidth 32 <<< 8 ||| a3.setWidth 32

/-! ## Printing -/

/-- `%u`, and `PRIu8` -/
def printU (n : Nat) : List Byte := (Numeral.digits 10 n).map fun d => BitVec.ofNat 8 (48 + d)

/-- `IPv4_BYTES_FMT` with `IPv4_BYTES` -/
def printIpv4 (addr : BitVec 32) : List Byte :=
  printU ((addr >>> 24) &&& 0xff).toNat ++ dot :: (printU ((addr >>> 16) &&& 0xff).toNat ++
    dot :: (printU ((addr >>> 8) &&& 0xff).toNat ++ dot :: printU (addr &&& 0xff).toNat))

/-- What `dump_connection` prints of the quad. -/
def dumpQuad (q : Quad) : List Byte :=
  printIpv4 (rteBeToCpu32 q.sip) ++ ascii " " ++ (printU (rteBeToCpu16 q.sport).toNat ++ ascii " " ++
    (printIpv4 (rteBeToCpu32 q.dip) ++ ascii " " ++ printU (rteBeToCpu16 q.dport).toNat))

/-! ## Well-formed operands -/

def IsNumber (m : Nat) (s : List Byte) : Prop :=
  s ≠ [] ∧ (∀ b ∈ s, isDigit b = true) ∧ valueOf s ≤ m

def DottedQuad (s : List Byte) : Prop :=
  ∃ a b c d, IsNumber 255 a ∧ IsNumber 255 b ∧ IsNumber 255 c ∧ IsNumber 255 d ∧
    s = a ++ dot :: (b ++ dot :: (c ++ dot :: d))

/-! ## Reading back -/

theorem isDigit_iff (b : Byte) : isDigit b = true ↔ 48 ≤ b.toNat ∧ b.toNat ≤ 57 := by
  unfold isDigit
  rw [Bool.and_eq_true, decide_eq_true_eq, decide_eq_true_eq, BitVec.le_def, BitVec.le_def]
  rfl

theorem takeSign_digit {b : Byte} (s : List Byte) (h : isDigit b = true) :
    takeSign ((b :: s).dropWhile isSpace) = (false, b :: s) := by
  rw [isDigit_iff] at h
  have hspace : isSpace b = false := by
    unfold isSpace
    simp only [Bool.or_eq_false_iff, Bool.and_eq_false_iff, decide_eq_false_iff_not, BitVec.le_def]
    refine ⟨?_, Or.inr ?_⟩
    · rintro rfl
      exact absurd h (by decide)
    · show ¬b.toNat ≤ 13
      omega
  have hminus : b ≠ 0x2d := by
    rintro rfl
    exact absurd h (by decide)
  have hplus : b ≠ 0x2b := by
    rintro rfl
    exact absurd h (by decide)
  rw [List.dropWhile_cons_of_neg (by rw [hspace]; decide)]
  rw [takeSign, if_neg hminus, if_neg hplus]

theorem clampLong_of_lt {n : Nat} (h : n < 2 ^ 63) : clampLong n = n := by
  unfold clampLong
  omega

/-- Of a run of digits with no digit behind it the library takes exactly the run. -/
theorem strtol_digits {s rest : List Byte} (hs : s ≠ []) (hd : ∀ b ∈ s, isDigit b = true)
    (hr : rest.takeWhile isDigit = []) :
    strtol (s ++ rest) = some (clampLong (valueOf s), rest) := by
  have htake : (s ++ rest).takeWhile isDigit = s := by
    rw [List.takeWhile_append_of_pos hd, hr, List.append_nil]
  have hdrop : (s ++ rest).dropWhile isDigit = rest := by
    have h := List.takeWhile_append_dropWhile (p := isDigit) (l := rest)
    rw [hr, List.nil_append] at h
    rw [List.dropWhile_append_of_pos hd, h]
  have hsign : takeSign ((s ++ rest).dropWhile isSpace) = (false, s ++ rest) := by
    cases s with
    | nil => exact absurd rfl hs
    | cons b s => exact takeSign_digit _ (hd b (List.mem_cons_self ..))
  unfold strtol
  rw [hsign]
  dsimp only
  rw [htake, hdrop, if_neg hs]
  rfl

theorem atoi_number {m : Nat} {s : List Byte} (hm : m < 2 ^ 31) (h : IsNumber m s) :
    atoi s = BitVec.ofNat 32 (valueOf s) := by
  obtain ⟨hs, hd, hv⟩ := h
  have hread := strtol_digits hs hd (show ([] : List Byte).takeWhile isDigit = [] from rfl)
  rw [List.append_nil, clampLong_of_lt (by omega)] at hread
  unfold atoi
  rw [hread]
  exact BitVec.ofInt_natCast 32 _

theorem scanHhd_number {s rest : List Byte} (h : IsNumber 255 s) (hr : rest.takeWhile isDigit = []) :
    scanHhd (s ++ rest) = some (BitVec.ofNat 8 (valueOf s), rest) := by
  obtain ⟨hs, hd, hv⟩ := h
  unfold scanHhd
  rw [strtol_digits hs hd hr, clampLong_of_lt (by omega)]
  show some (BitVec.ofInt 8 (valueOf s : Int), rest) = _
  rw [BitVec.ofInt_natCast]

theorem stringToIp_number {a b c d : List Byte} (ha : IsNumber 255 a) (hb : IsNumber 255 b)
    (hc : IsNumber 255 c) (hd : IsNumber 255 d) :
    stringToIp (a ++ dot :: (b ++ dot :: (c ++ dot :: d))) =
      some ((BitVec.ofNat 8 (valueOf a)).setWidth 32 <<< 24 |||
        (BitVec.ofNat 8 (valueOf b)).setWidth 32 <<< 16 |||
        (BitVec.ofNat 8 (valueOf c)).setWidth 32 <<< 8 ||| (BitVec.ofNat 8 (valueOf d)).setWidth 32) := by
  have hdot : ∀ s : List Byte, (dot :: s).takeWhile isDigit = [] := fun s => rfl
  have hscan : ∀ s : List Byte, scanDot (dot :: s) = some s := fun s => rfl
  have hlast := scanHhd_number hd (show ([] : List Byte).takeWhile isDigit = [] from rfl)
  rw [List.append_nil] at hlast
  unfold stringToIp
  simp only [scanHhd_number ha (hdot _), scanHhd_number hb (hdot _), scanHhd_number hc (hdot _),
    hlast, hscan, Option.bind_eq_bind, Option.bind_some]
  rfl

/-! ### What is printed -/

theorem digit_toNat {d : Nat} (h : d < 10) : (BitVec.ofNat 8 (48 + d)).toNat = 48 + d := by
  rw [BitVec.toNat_ofNat]
  omega

theorem valueOf_printU (n : Nat) : valueOf (printU n) = n := by
  have hmap : (printU n).map digitOf = Numeral.digits 10 n := by
    unfold printU
    rw [List.map_map]
    refine (List.map_congr_left fun d hd => ?_).trans (List.map_id _)
    show (BitVec.ofNat 8 (48 + d)).toNat - 48 = d
    rw [digit_toNat (Numeral.lt_of_mem_digits (by decide) hd)]
    omega
  unfold valueOf
  rw [hmap]
  exact Numeral.value_digits 10 n

theorem isNumber_printU {n m : Nat} (h : n ≤ m) : IsNumber m (printU n) := by
  refine ⟨?_, ?_, ?_⟩
  · unfold printU
    rw [Ne, List.map_eq_nil_iff]
    exact Numeral.digits_ne_nil 10 n
  · intro b hb
    obtain ⟨d, hd, rfl⟩ := List.mem_map.mp hb
    have hlt := Numeral.lt_of_mem_digits (by decide) hd
    rw [isDigit_iff, digit_toNat hlt]
    omega
  · rw [valueOf_printU]
    exact h

theorem octet_le (x : BitVec 32) : (x &&& 0xff).toNat ≤ 255 := by
  rw [BitVec.toNat_and]
  exact Nat.and_le_right

theorem octet_setWidth (x : BitVec 32) : (x &&& 0xff).setWidth 8 = x.setWidth 8 := by
  ext i hi
  interval_cases i <;> simp

theorem octets (addr : BitVec 32) :
    ((addr >>> 24).setWidth 8).setWidth 32 <<< 24 ||| ((addr >>> 16).setWidth 8).setWidth 32 <<< 16 |||
      ((addr >>> 8).setWidth 8).setWidth 32 <<< 8 ||| (addr.setWidth 8).setWidth 32 = addr := by
  ext i hi
  interval_cases i <;> simp

/-- For all addresses: the octets are printed from the top and read into the same places. -/
theorem stringToIp_print (addr : BitVec 32) : stringToIp (printIpv4 addr) = some addr := by
  unfold printIpv4
  rw [stringToIp_number (isNumber_printU (octet_le _)) (isNumber_printU (octet_le _))
    (isNumber_printU (octet_le _)) (isNumber_printU (octet_le _))]
  simp only [valueOf_printU, BitVec.ofNat_toNat, octet_setWidth]
  rw [octets]

theorem atoi_print (port : BitVec 16) : (atoi (printU port.toNat)).setWidth 16 = port := by
  have hlt := port.isLt
  rw [atoi_number (m := 65535) (by decide) (isNumber_printU (by omega)), valueOf_printU]
  apply BitVec.eq_of_toNat_eq
  rw [BitVec.toNat_setWidth, BitVec.toNat_ofNat]
  omega

end TcpDpdk
