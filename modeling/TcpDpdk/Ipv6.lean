import TcpDpdk.Addresses

/-!
# Addresses of sixteen bytes

`inet_pton6` reads groups of hexadecimal digits, of which the last two may be a dotted quad and
any number, but not none, may be left out once. `inetPton6_some` says so of every text: what is
taken is derived by the grammar below, and to the same bytes.
-/

namespace TcpDpdk

/-! ## Reading -/

def colon : Byte := 0x3a

def xdigitsL : List Byte := ascii "0123456789abcdef"
def xdigitsU : List Byte := ascii "0123456789ABCDEF"

/-- `pch - xdigits` -/
def xdigitOf (ch : Byte) : Option Nat := (xdigitsL.idxOf? ch).or (xdigitsU.idxOf? ch)

def in6addrsz : Nat := 16

/-- `tmp` up to `tp`, the bytes behind being zero; `colonp` as an index. -/
structure Pton6 where
  tmp : List Byte
  colonp : Option Nat
  curtok : List Byte
  sawXdigit : Bool
  countXdigit : Nat
  val : Nat
  dbloctCount : Nat

def Pton6.flush (st : Pton6) : Option Pton6 :=
  if st.tmp.length + 2 > in6addrsz then none
  else some { st with
    tmp := st.tmp ++ [BitVec.ofNat 8 (st.val >>> 8 &&& 0xff), BitVec.ofNat 8 (st.val &&& 0xff)]
    dbloctCount := st.dbloctCount + 1 }

def pton6Loop : List Byte → Pton6 → Option Pton6
  | [], st => some st
  | ch :: src, st =>
    match xdigitOf ch with
    | some d =>
      let val := st.val <<< 4 ||| d
      if st.countXdigit ≥ 4 then none
      else if val > 0xffff then none
      else pton6Loop src { st with val, sawXdigit := true, countXdigit := st.countXdigit + 1 }
    | none =>
      if ch = colon then
        if st.sawXdigit = false then
          if st.colonp.isSome then none
          else pton6Loop src { st with curtok := src, colonp := some st.tmp.length }
        else if src = [] then none
        else st.flush.bind fun st =>
          pton6Loop src { st with curtok := src, sawXdigit := false, countXdigit := 0, val := 0 }
      else if ch = dot ∧ st.tmp.length + 4 ≤ in6addrsz then
        -- the zero has been seen by `inet_pton4`
        (inetPton4 st.curtok).map fun quad =>
          { st with tmp := st.tmp ++ quad, sawXdigit := false, dbloctCount := st.dbloctCount + 2 }
      else none

/-- The shift by hand, with `c` for `colonp` and `n` for `tp - colonp`. -/
def pton6Shift (c n : Nat) (tmp : List Byte) : List Byte :=
  (List.range n).foldl (fun tmp i =>
    (tmp.set (in6addrsz - (i + 1)) (tmp.getD (c + (n - (i + 1))) 0)).set (c + (n - (i + 1))) 0) tmp

def pton6End (st : Pton6) : Option (List Byte) :=
  (if st.sawXdigit then st.flush else some st).bind fun st =>
    match st.colonp with
    | some c =>
      if st.dbloctCount = 8 then none
      else some (pton6Shift c (st.tmp.length - c)
        (st.tmp ++ List.replicate (in6addrsz - st.tmp.length) 0))
    | none => if st.tmp.length ≠ in6addrsz then none else some st.tmp

def pton6Run (src : List Byte) (st : Pton6) : Option (List Byte) :=
  (pton6Loop src st).bind pton6End

/-- A token begins where `tp` stands behind the bytes `tmp`. -/
def Pton6.start (tmp : List Byte) (colonp : Option Nat) (src : List Byte) : Pton6 :=
  ⟨tmp, colonp, src, false, 0, 0, tmp.length / 2⟩

def inetPton6 (src : List Byte) : Option (List Byte) :=
  if src.head? = some colon then
    if src.tail.head? = some colon then pton6Run src.tail (.start [] none src.tail) else none
  else pton6Run src (.start [] none src)

def inet6Addrstrlen : Nat := 46

def parseIpv6Addr (token : List Byte) : Option (List Byte) :=
  if token.length ≥ inet6Addrstrlen then none else inetPton6 token

/-! ## The grammar -/

def isXdigit (b : Byte) : Bool := (xdigitOf b).isSome

def hexOf (h : List Byte) : Nat := Numeral.value 16 (h.map fun b => (xdigitOf b).getD 0)

structure IsHextet (h : List Byte) : Prop where
  some : h ≠ []
  digits : ∀ b ∈ h, isXdigit b = true
  length : h.length ≤ 4

def hextetOf (h : List Byte) : List Byte := store16 (rteCpuToBe16 (BitVec.ofNat 16 (hexOf h)))

inductive Groups : List Byte → List Byte → Prop
  | hextet {h : List Byte} (hh : IsHextet h) : Groups h (hextetOf h)
  /-- The digits before the first dot have been counted as those of a hextet. -/
  | quad {s : List Byte} (hs : DottedQuad s) (h4 : (s.takeWhile isXdigit).length ≤ 4) :
      Groups s ((s.splitOn dot).map octetOf)
  | cons {h s t : List Byte} (hh : IsHextet h) (hs : Groups s t) :
      Groups (h ++ colon :: s) (hextetOf h ++ t)

inductive Ipv6Text : List Byte → List Byte → Prop
  | full {s t : List Byte} (hs : Groups s t) (h16 : t.length = in6addrsz) : Ipv6Text s t
  | short {hs : List (List Byte)} {s t : List Byte} (hh : ∀ h ∈ hs, IsHextet h)
      (ht : s = [] ∧ t = [] ∨ Groups s t) (h14 : 2 * hs.length + t.length ≤ 14) :
      Ipv6Text ([colon].intercalate hs ++ colon :: colon :: s)
        (hs.flatMap hextetOf ++ List.replicate (in6addrsz - (2 * hs.length + t.length)) 0 ++ t)

/-! ## The shift -/

def spread (c : Nat) (tmp : List Byte) : List Byte :=
  tmp.take c ++ List.replicate (in6addrsz - tmp.length) 0 ++ tmp.drop c

theorem shift_step {l r : List Byte} (x : Byte) (m : Nat) :
    ((l ++ x :: (List.replicate (m + 1) 0 ++ r)).set (l.length + 1 + m) x).set l.length 0 =
      l ++ (List.replicate (m + 1) 0 ++ x :: r) := by
  have hz : l ++ x :: (List.replicate (m + 1) 0 ++ r) =
      (l ++ x :: List.replicate m 0) ++ 0 :: r := by
    rw [List.replicate_succ']
    simp
  have hlen : l.length + 1 + m = (l ++ x :: List.replicate m (0 : Byte)).length := by
    simp
    omega
  rw [hz, hlen]
  simp [List.replicate_succ]

theorem pton6Shift_eq {c : Nat} {tmp : List Byte} (hc : c ≤ tmp.length)
    (hlen : tmp.length < in6addrsz) :
    pton6Shift c (tmp.length - c) (tmp ++ List.replicate (in6addrsz - tmp.length) 0) =
      spread c tmp := by
  obtain ⟨m, hm⟩ : ∃ m, in6addrsz - tmp.length = m + 1 := ⟨in6addrsz - tmp.length - 1, by omega⟩
  have step : ∀ i ≤ tmp.length - c, (List.range i).foldl (fun tmp' j =>
      (tmp'.set (in6addrsz - (j + 1)) (tmp'.getD (c + ((tmp.length - c) - (j + 1))) 0)).set
        (c + ((tmp.length - c) - (j + 1))) 0) (tmp ++ List.replicate (in6addrsz - tmp.length) 0) =
      spread (tmp.length - i) tmp := by
    intro i
    induction i with
    | zero =>
      intro _
      simp [spread]
    | succ i ih =>
      intro hi
      rw [List.range_succ, List.foldl_append, ih (by omega)]
      obtain ⟨k, hk⟩ : ∃ k, tmp.length - i = k + 1 := ⟨tmp.length - i - 1, by omega⟩
      have hk' : tmp.length - (i + 1) = k := by omega
      have hkl : k < tmp.length := by omega
      have hat : c + ((tmp.length - c) - (i + 1)) = (tmp.take k).length := by
        rw [List.length_take]
        omega
      have hto : in6addrsz - (i + 1) = (tmp.take k).length + 1 + m := by
        rw [List.length_take]
        omega
      have htake : tmp.take (k + 1) = tmp.take k ++ [tmp[k]] := by simp
      have hdrop : tmp.drop k = tmp[k] :: tmp.drop (k + 1) := by simp
      unfold spread
      rw [hk, hk', hm, htake, hdrop, List.append_assoc, List.append_assoc, List.append_assoc]
      simp only [List.foldl_cons, List.foldl_nil, List.singleton_append]
      rw [hat, hto]
      have hget : (tmp.take k ++ tmp[k] :: (List.replicate (m + 1) 0 ++ tmp.drop (k + 1))).getD
          (tmp.take k).length 0 = tmp[k] := by simp
      rw [hget, shift_step tmp[k] m]
  unfold pton6Shift
  rw [step _ (Nat.le_refl _)]
  congr 1
  omega

/-! ## Digits -/

theorem xdigitOf_lt {b : Byte} {d : Nat} (h : xdigitOf b = some d) : d < 16 := by
  unfold xdigitOf at h
  rcases Option.or_eq_some_iff.mp h with h | ⟨-, h⟩
  · exact (List.findIdx?_eq_some_iff_getElem.mp h).1
  · exact (List.findIdx?_eq_some_iff_getElem.mp h).1

/-- The value of more digits behind the value `v`. -/
def hexFrom (v : Nat) (h : List Byte) : Nat :=
  h.foldl (fun v b => 16 * v + (xdigitOf b).getD 0) v

theorem hexFrom_zero (h : List Byte) : hexFrom 0 h = hexOf h := by
  unfold hexFrom hexOf Numeral.value
  rw [List.foldl_map]

theorem shift_or {v d : Nat} (h : d < 16) : v <<< 4 ||| d = 16 * v + d := by
  rw [← Nat.shiftLeft_add_eq_or_of_lt (i := 4) h, Nat.shiftLeft_eq, Nat.mul_comm]

theorem loop_digits {h : List Byte} (rest : List Byte) {st : Pton6}
    (hd : ∀ b ∈ h, isXdigit b = true) (hcount : st.countXdigit ≤ 4)
    (hval : st.val < 16 ^ st.countXdigit) : pton6Loop (h ++ rest) st =
      if st.countXdigit + h.length ≤ 4 then
        pton6Loop rest { st with
          sawXdigit := st.sawXdigit || !h.isEmpty
          countXdigit := st.countXdigit + h.length
          val := hexFrom st.val h }
      else none := by
  induction h generalizing st with
  | nil => simp [hexFrom, hcount]
  | cons b h ih =>
    obtain ⟨hb, hd⟩ := List.forall_mem_cons.mp hd
    obtain ⟨d, hx⟩ := Option.isSome_iff_exists.mp hb
    have hlt := xdigitOf_lt hx
    have hsame : hexFrom st.val (b :: h) = hexFrom (16 * st.val + d) h := by
      simp [hexFrom, hx]
    rw [List.cons_append, pton6Loop]
    simp only [hx, shift_or hlt]
    by_cases h4 : st.countXdigit ≥ 4
    · have hlong : ¬st.countXdigit + (b :: h).length ≤ 4 := by
        rw [List.length_cons]
        omega
      rw [if_pos h4, if_neg hlong]
    · have hpow : 16 * st.val + d < 16 ^ (st.countXdigit + 1) := by
        rw [pow_succ]
        omega
      have hfit : ¬16 * st.val + d > 0xffff := by
        have hle : 16 ^ (st.countXdigit + 1) ≤ 16 ^ 4 := Nat.pow_le_pow_right (by decide) (by omega)
        omega
      rw [if_neg h4, if_neg hfit, ih hd (by simp; omega) hpow, hsame]
      simp [Nat.add_comm, Nat.add_assoc]

/-- The state behind the digits of a token. -/
def Pton6.token (tmp : List Byte) (colonp : Option Nat) (src h : List Byte) : Pton6 :=
  ⟨tmp, colonp, src, !h.isEmpty, h.length, hexOf h, tmp.length / 2⟩

section
variable {tmp : List Byte} {colonp : Option Nat} {h rest : List Byte}

theorem run_digits (src) (hd : ∀ b ∈ h, isXdigit b = true) :
    pton6Run (h ++ rest) (.start tmp colonp src) =
      if h.length ≤ 4 then pton6Run rest (.token tmp colonp src h) else none := by
  unfold pton6Run
  rw [loop_digits rest hd (by simp [Pton6.start]) (by simp [Pton6.start])]
  simp only [Pton6.start, Nat.zero_add, hexFrom_zero]
  by_cases h4 : h.length ≤ 4
  · rw [if_pos h4, if_pos h4]
    rfl
  · rw [if_neg h4, if_neg h4]
    rfl

theorem store16_rteCpuToBe16 (x : BitVec 16) :
    store16 (rteCpuToBe16 x) = [(x >>> 8).setWidth 8, x.setWidth 8] := by
  show [_, _] = [_, _]
  simp only [List.cons.injEq, and_true, rteCpuToBe16, rteBswap16]
  constructor <;> (ext i hi; interval_cases i <;> simp)

theorem and_ff (v : Nat) : v &&& 0xff = v % 256 := Nat.and_two_pow_sub_one_eq_mod v 8

theorem hextet_bytes (v : Nat) :
    [BitVec.ofNat 8 (v >>> 8 &&& 0xff), BitVec.ofNat 8 (v &&& 0xff)] =
      store16 (rteCpuToBe16 (BitVec.ofNat 16 v)) := by
  rw [store16_rteCpuToBe16]
  simp only [List.cons.injEq, and_true]
  constructor
  · apply BitVec.eq_of_toNat_eq
    rw [BitVec.toNat_ofNat, BitVec.toNat_setWidth, BitVec.toNat_ushiftRight, BitVec.toNat_ofNat,
      and_ff, Nat.shiftRight_eq_div_pow, Nat.shiftRight_eq_div_pow]
    omega
  · apply BitVec.eq_of_toNat_eq
    rw [BitVec.toNat_ofNat, BitVec.toNat_setWidth, BitVec.toNat_ofNat, and_ff]
    omega

/-- What is returned for the bytes `tmp`. -/
def ending (colonp : Option Nat) (tmp : List Byte) : Option (List Byte) :=
  match colonp with
  | some c => if tmp.length ≤ 14 then some (spread c tmp) else none
  | none => if tmp.length = in6addrsz then some tmp else none

structure Pton6.Good (tmp : List Byte) (colonp : Option Nat) : Prop where
  even : tmp.length % 2 = 0
  room : tmp.length ≤ in6addrsz
  colonp : ∀ c ∈ colonp, c ≤ tmp.length

theorem pton6End_eq (hg : Pton6.Good tmp colonp) {s : Pton6} (htmp : s.tmp = tmp)
    (hc : s.colonp = colonp) (hsaw : s.sawXdigit = false)
    (hdb : s.dbloctCount = tmp.length / 2) : pton6End s = ending colonp tmp := by
  obtain ⟨heven, hroom, hle⟩ := hg
  unfold in6addrsz at hroom
  unfold pton6End ending
  simp only [hsaw, Bool.false_eq_true, if_false, Option.bind_some, htmp, hc, hdb]
  cases colonp with
  | none => simp
  | some c =>
    by_cases h14 : tmp.length ≤ 14
    · have h8 : tmp.length / 2 ≠ 8 := by omega
      have hshift := pton6Shift_eq (hle c rfl) (Nat.lt_of_le_of_lt h14 (by decide))
      simp only [if_neg h8, if_pos h14, hshift]
    · have h8 : tmp.length / 2 = 8 := by omega
      simp [h8, h14]

theorem Pton6.Good.append (hg : Pton6.Good tmp colonp) {t : List Byte} (heven : t.length % 2 = 0)
    (hroom : tmp.length + t.length ≤ in6addrsz) : Pton6.Good (tmp ++ t) colonp := by
  refine ⟨?_, ?_, fun c hc => ?_⟩
  · have h := hg.even
    rw [List.length_append]
    omega
  · rw [List.length_append]
    exact hroom
  · rw [List.length_append]
    exact Nat.le_trans (hg.colonp c hc) (Nat.le_add_right ..)

theorem token_nil (hg : Pton6.Good tmp colonp) (src : List Byte) :
    pton6Run [] (.token tmp colonp src []) = ending colonp tmp := by
  have h := pton6End_eq hg (s := .token tmp colonp src []) rfl rfl rfl rfl
  exact h

theorem token_flush (src : List Byte) (hne : h ≠ []) : (Pton6.token tmp colonp src h).flush =
    if tmp.length + 2 > in6addrsz then none
    else some ⟨tmp ++ hextetOf h, colonp, src, true, h.length, hexOf h, tmp.length / 2 + 1⟩ := by
  unfold Pton6.flush Pton6.token hextetOf
  simp only [hextet_bytes]
  cases h with
  | nil => exact absurd rfl hne
  | cons => rfl

theorem length_hextetOf (h : List Byte) : (hextetOf h).length = 2 := rfl

theorem token_saw (src : List Byte) (hne : h ≠ []) :
    (Pton6.token tmp colonp src h).sawXdigit = true := by
  cases h with
  | nil => exact absurd rfl hne
  | cons => rfl

theorem token_end (hg : Pton6.Good tmp colonp) (src : List Byte) (hne : h ≠ []) :
    pton6Run [] (.token tmp colonp src h) =
      if tmp.length + 2 ≤ in6addrsz then ending colonp (tmp ++ hextetOf h) else none := by
  show pton6End (.token tmp colonp src h) = _
  by_cases hroom : tmp.length + 2 ≤ in6addrsz
  · have hgood : Pton6.Good (tmp ++ hextetOf h) colonp := hg.append (by rw [length_hextetOf]) hroom
    have hend := pton6End_eq hgood
      (s := ⟨tmp ++ hextetOf h, colonp, src, false, h.length, hexOf h, tmp.length / 2 + 1⟩) rfl rfl
      rfl (by simp [length_hextetOf])
    rw [if_pos hroom, ← hend]
    unfold pton6End
    rw [token_saw src hne, token_flush src hne, if_neg (Nat.not_lt.mpr hroom)]
    rfl
  · rw [if_neg hroom]
    unfold pton6End
    rw [token_saw src hne, token_flush src hne, if_pos (Nat.lt_of_not_le hroom)]
    rfl

theorem token_colon (src r : List Byte) (hne : h ≠ []) :
    pton6Run (colon :: r) (.token tmp colonp src h) =
      if r ≠ [] ∧ tmp.length + 2 ≤ in6addrsz then
        pton6Run r (.start (tmp ++ hextetOf h) colonp r)
      else none := by
  have hx : xdigitOf colon = none := by decide
  have hdb : (tmp.length + (hextetOf h).length) / 2 = tmp.length / 2 + 1 := by
    simp [length_hextetOf]
  unfold pton6Run
  simp only [pton6Loop, hx, token_saw src hne, token_flush src hne]
  by_cases hr : r = []
  · simp [hr]
  · by_cases hroom : tmp.length + 2 ≤ in6addrsz
    · simp [hr, hroom, Nat.not_lt.mpr hroom, Pton6.start, hdb]
    · simp [hr, hroom, Nat.lt_of_not_le hroom]

theorem token_colons (src r : List Byte) : pton6Run (colon :: r) (.token tmp colonp src []) =
    if colonp = none then pton6Run r (.start tmp (some tmp.length) r) else none := by
  have hx : xdigitOf colon = none := by decide
  unfold pton6Run
  simp only [pton6Loop, hx]
  cases colonp with
  | none => rfl
  | some c => simp [Pton6.token]

theorem token_dot (hg : Pton6.Good tmp colonp) (src r : List Byte) :
    pton6Run (dot :: r) (.token tmp colonp src h) =
      if tmp.length + 4 ≤ in6addrsz then
        (inetPton4 src).bind fun quad => ending colonp (tmp ++ quad)
      else none := by
  have hx : xdigitOf dot = none := by decide
  have hcolon : dot ≠ colon := by decide
  unfold pton6Run
  simp only [pton6Loop, hx, if_neg hcolon, true_and, Pton6.token]
  by_cases hroom : tmp.length + 4 ≤ in6addrsz
  · rw [if_pos hroom, if_pos hroom]
    cases hq : inetPton4 src with
    | none => rfl
    | some quad =>
      have hlen : quad.length = 4 := by
        obtain ⟨h4, -, rfl⟩ := inetPton4_some.mp hq
        rw [List.length_map, h4]
      have hgood : Pton6.Good (tmp ++ quad) colonp := hg.append (by rw [hlen]) (by rw [hlen]; exact hroom)
      have hend := pton6End_eq hgood
        (s := ⟨tmp ++ quad, colonp, src, false, h.length, hexOf h, tmp.length / 2 + 2⟩) rfl rfl rfl
        (by simp [hlen]; omega)
      exact hend
  · rw [if_neg hroom, if_neg hroom]
    rfl

theorem token_other {b : Byte} (hx : isXdigit b = false) (hcolon : b ≠ colon) (hdot : b ≠ dot)
    (r : List Byte) (st : Pton6) : pton6Run (b :: r) st = none := by
  have hx : xdigitOf b = none := Option.isNone_iff_eq_none.mp (by simpa [isXdigit] using hx)
  unfold pton6Run
  simp [pton6Loop, hx, hcolon, hdot]

end

/-! ## Derivations -/

theorem isXdigit_digit {b : Byte} (h : isDigit b = true) : isXdigit b = true := by
  obtain ⟨hlo, hhi⟩ := (isDigit_iff b).mp h
  have hb : b = BitVec.ofNat 8 b.toNat := (BitVec.ofNat_toNat 8 b).symm
  generalize b.toNat = n at hlo hhi hb
  subst hb
  interval_cases n <;> decide

theorem takeWhile_cut {h r : List Byte} {b : Byte} (hd : ∀ b ∈ h, isXdigit b = true)
    (hb : isXdigit b = false) : (h ++ b :: r).takeWhile isXdigit = h := by
  rw [List.takeWhile_append_of_pos hd, List.takeWhile_cons_of_neg (by simp [hb]), List.append_nil]

theorem cut_eq {h₁ h₂ r₁ r₂ : List Byte} {b₁ b₂ : Byte} (hd₁ : ∀ b ∈ h₁, isXdigit b = true)
    (hd₂ : ∀ b ∈ h₂, isXdigit b = true) (hb₁ : isXdigit b₁ = false) (hb₂ : isXdigit b₂ = false)
    (he : h₁ ++ b₁ :: r₁ = h₂ ++ b₂ :: r₂) : h₁ = h₂ ∧ b₁ = b₂ ∧ r₁ = r₂ := by
  have hh : h₁ = h₂ := by
    rw [← takeWhile_cut hd₁ hb₁ (r := r₁), he, takeWhile_cut hd₂ hb₂]
  subst hh
  have htail := List.append_cancel_left he
  cases htail
  exact ⟨rfl, rfl, rfl⟩

theorem colon_no_digit : isXdigit colon = false := by decide

theorem dot_no_digit : isXdigit dot = false := by decide

theorem not_mem_digits {h : List Byte} {b : Byte} (hd : ∀ b ∈ h, isXdigit b = true)
    (hb : isXdigit b = false) : b ∉ h := fun hmem => by
  rw [hd b hmem] at hb
  cases hb

theorem dottedQuad_cut {s : List Byte} (h : DottedQuad s) :
    ∃ a r, (∀ b ∈ a, isXdigit b = true) ∧ s = a ++ dot :: r := by
  obtain ⟨a, b, c, d, ha, -, -, -, rfl⟩ := h
  exact ⟨a, _, fun x hx => isXdigit_digit (ha.2.1 x hx), rfl⟩

theorem groups_cases {s t : List Byte} (hs : Groups s t) :
    IsHextet s ∧ t = hextetOf s ∨
      (DottedQuad s ∧ (s.takeWhile isXdigit).length ≤ 4 ∧ t = (s.splitOn dot).map octetOf) ∨
      ∃ h s' t', IsHextet h ∧ Groups s' t' ∧ s = h ++ colon :: s' ∧ t = hextetOf h ++ t' := by
  cases hs with
  | hextet hh => exact Or.inl ⟨hh, rfl⟩
  | quad hs h4 => exact Or.inr (Or.inl ⟨hs, h4, rfl⟩)
  | cons hh hs => exact Or.inr (Or.inr ⟨_, _, _, hh, hs, rfl, rfl⟩)

section
variable {h r t : List Byte}

theorem groups_end (hd : ∀ b ∈ h, isXdigit b = true) :
    Groups h t ↔ (h ≠ [] ∧ h.length ≤ 4) ∧ t = hextetOf h := by
  constructor
  · intro hs
    obtain ⟨hh, ht⟩ | ⟨hq, -⟩ | ⟨f, s', t', -, -, he, -⟩ := groups_cases hs
    · exact ⟨⟨hh.some, hh.length⟩, ht⟩
    · obtain ⟨a, r, -, he⟩ := dottedQuad_cut hq
      have hmem : dot ∈ h := by simp [he]
      exact absurd hmem (not_mem_digits hd dot_no_digit)
    · have hmem : colon ∈ h := by simp [he]
      exact absurd hmem (not_mem_digits hd colon_no_digit)
  · rintro ⟨⟨hne, h4⟩, rfl⟩
    exact .hextet ⟨hne, hd, h4⟩

theorem groups_colon (hd : ∀ b ∈ h, isXdigit b = true) :
    Groups (h ++ colon :: r) t ↔
      (h ≠ [] ∧ h.length ≤ 4) ∧ ∃ t', Groups r t' ∧ t = hextetOf h ++ t' := by
  constructor
  · intro hs
    obtain ⟨hh, -⟩ | ⟨hq, -⟩ | ⟨f, s', t', hf, hs', he, ht⟩ := groups_cases hs
    · exact absurd (by simp) (not_mem_digits hh.digits colon_no_digit)
    · obtain ⟨a, r', ha, he⟩ := dottedQuad_cut hq
      obtain ⟨-, hb, -⟩ := cut_eq hd ha colon_no_digit dot_no_digit he
      exact absurd hb (by decide)
    · obtain ⟨rfl, -, rfl⟩ := cut_eq hd hf.digits colon_no_digit colon_no_digit he
      exact ⟨⟨hf.some, hf.length⟩, t', hs', ht⟩
  · rintro ⟨⟨hne, h4⟩, t', hs, rfl⟩
    exact .cons ⟨hne, hd, h4⟩ hs

theorem groups_dot (hd : ∀ b ∈ h, isXdigit b = true) :
    Groups (h ++ dot :: r) t ↔ h.length ≤ 4 ∧ inetPton4 (h ++ dot :: r) = some t := by
  have hcut : (h ++ dot :: r).takeWhile isXdigit = h := takeWhile_cut hd dot_no_digit
  constructor
  · intro hs
    obtain ⟨hh, -⟩ | ⟨hq, h4, ht⟩ | ⟨f, s', t', hf, -, he, -⟩ := groups_cases hs
    · exact absurd (by simp) (not_mem_digits hh.digits dot_no_digit)
    · obtain ⟨hlen, hnum⟩ := dottedQuad_iff.mp hq
      rw [hcut] at h4
      exact ⟨h4, inetPton4_some.mpr ⟨hlen, hnum, ht⟩⟩
    · obtain ⟨-, hb, -⟩ := cut_eq hd hf.digits dot_no_digit colon_no_digit he
      exact absurd hb (by decide)
  · rintro ⟨h4, hq⟩
    obtain ⟨hlen, hnum, rfl⟩ := inetPton4_some.mp hq
    rw [← hcut] at h4
    exact .quad (dottedQuad_iff.mpr ⟨hlen, hnum⟩) h4

theorem groups_other {b : Byte} (hd : ∀ b ∈ h, isXdigit b = true) (hb : isXdigit b = false)
    (hcolon : b ≠ colon) (hdot : b ≠ dot) : ¬Groups (h ++ b :: r) t := by
  intro hs
  obtain ⟨hh, -⟩ | ⟨hq, -⟩ | ⟨f, s', t', hf, -, he, -⟩ := groups_cases hs
  · exact absurd (by simp) (not_mem_digits hh.digits hb)
  · obtain ⟨a, r', ha, he⟩ := dottedQuad_cut hq
    exact absurd (cut_eq hd ha hb dot_no_digit he).2.1 hdot
  · exact absurd (cut_eq hd hf.digits hb colon_no_digit he).2.1 hcolon

/-- Hextets with a colon behind each. -/
def lead (hs : List (List Byte)) : List Byte := hs.flatMap (· ++ [colon])

theorem lead_cut {hs : List (List Byte)} {b : Byte} {r' : List Byte} (hh : ∀ h ∈ hs, IsHextet h)
    (hd : ∀ b ∈ h, isXdigit b = true) (hb : isXdigit b = false) :
    lead hs ++ colon :: r' = h ++ b :: r ↔ b = colon ∧
      ((hs = [] ∧ h = [] ∧ r' = r) ∨ ∃ hs', hs = h :: hs' ∧ lead hs' ++ colon :: r' = r) := by
  cases hs with
  | nil =>
    constructor
    · intro he
      have he : [] ++ colon :: r' = h ++ b :: r := he
      obtain ⟨rfl, rfl, rfl⟩ := cut_eq (by simp) hd colon_no_digit hb he
      exact ⟨rfl, Or.inl ⟨rfl, rfl, rfl⟩⟩
    · rintro ⟨rfl, ⟨-, rfl, rfl⟩ | ⟨hs', he, -⟩⟩
      · rfl
      · cases he
  | cons f hs =>
    have hf := (List.forall_mem_cons.mp hh).1
    have hlead : lead (f :: hs) ++ colon :: r' = f ++ colon :: (lead hs ++ colon :: r') := by
      simp [lead]
    rw [hlead]
    constructor
    · intro he
      obtain ⟨rfl, rfl, rfl⟩ := cut_eq hf.digits hd colon_no_digit hb he
      exact ⟨rfl, Or.inr ⟨hs, rfl, rfl⟩⟩
    · rintro ⟨rfl, ⟨he, -⟩ | ⟨hs', he, rfl⟩⟩
      · cases he
      · cases he
        rfl

end

/-- What the grammar derives from a token that begins behind the bytes `tmp`. -/
def Derives (colonp : Option Nat) (tmp s t : List Byte) : Prop :=
  (∃ b, Groups s b ∧ ending colonp (tmp ++ b) = some t) ∨
    (colonp = none ∧ ∃ hs r b, (∀ h ∈ hs, IsHextet h) ∧ s = lead hs ++ colon :: r ∧
      (r = [] ∧ b = [] ∨ Groups r b) ∧
      ending (some (tmp ++ hs.flatMap hextetOf).length) (tmp ++ hs.flatMap hextetOf ++ b) = some t)

section
variable {colonp : Option Nat} {tmp h r t : List Byte}

theorem derives_end (hd : ∀ b ∈ h, isXdigit b = true) : Derives colonp tmp h t ↔
    (h ≠ [] ∧ h.length ≤ 4) ∧ ending colonp (tmp ++ hextetOf h) = some t := by
  constructor
  · rintro (⟨b, hs, hend⟩ | ⟨-, hs, r, b, -, he, -⟩)
    · obtain ⟨hh, rfl⟩ := (groups_end hd).mp hs
      exact ⟨hh, hend⟩
    · exact absurd (by simp [he]) (not_mem_digits hd colon_no_digit)
  · rintro ⟨hh, hend⟩
    exact Or.inl ⟨_, (groups_end hd).mpr ⟨hh, rfl⟩, hend⟩

theorem derives_colons : Derives colonp tmp (colon :: r) t ↔ colonp = none ∧
    (r = [] ∧ ending (some tmp.length) tmp = some t ∨ Derives (some tmp.length) tmp r t) := by
  have hnil : ∀ b ∈ ([] : List Byte), isXdigit b = true := by simp
  constructor
  · rintro (⟨b, hs, -⟩ | ⟨hc, hs, r', b, hh, he, htail, hend⟩)
    · exact absurd rfl ((groups_colon hnil).mp hs).1.1
    · refine ⟨hc, ?_⟩
      obtain ⟨-, ⟨rfl, -, rfl⟩ | ⟨hs', rfl, -⟩⟩ := (lead_cut hh hnil colon_no_digit).mp he.symm
      · rw [List.flatMap_nil, List.append_nil] at hend
        rcases htail with ⟨rfl, rfl⟩ | hs
        · rw [List.append_nil] at hend
          exact Or.inl ⟨rfl, hend⟩
        · exact Or.inr (Or.inl ⟨b, hs, hend⟩)
      · exact absurd rfl (hh [] (List.mem_cons_self ..)).some
  · rintro ⟨hc, h⟩
    refine Or.inr ⟨hc, [], r, ?_⟩
    rcases h with ⟨rfl, hend⟩ | ⟨b, hs, hend⟩ | ⟨hc, -⟩
    · exact ⟨[], by simp, rfl, Or.inl ⟨rfl, rfl⟩, by simpa using hend⟩
    · exact ⟨b, by simp, rfl, Or.inr hs, by simpa using hend⟩
    · cases hc

theorem derives_colon (hne : h ≠ []) (hd : ∀ b ∈ h, isXdigit b = true) :
    Derives colonp tmp (h ++ colon :: r) t ↔
      h.length ≤ 4 ∧ Derives colonp (tmp ++ hextetOf h) r t := by
  constructor
  · rintro (⟨b, hs, hend⟩ | ⟨hc, hs, r', b, hh, he, htail, hend⟩)
    · obtain ⟨⟨-, h4⟩, b', hr, rfl⟩ := (groups_colon hd).mp hs
      rw [← List.append_assoc] at hend
      exact ⟨h4, Or.inl ⟨b', hr, hend⟩⟩
    · obtain ⟨-, ⟨-, rfl, -⟩ | ⟨hs', rfl, hr⟩⟩ := (lead_cut hh hd colon_no_digit).mp he.symm
      · exact absurd rfl hne
      · obtain ⟨hf, hh'⟩ := List.forall_mem_cons.mp hh
        rw [List.flatMap_cons, ← List.append_assoc] at hend
        exact ⟨hf.length, Or.inr ⟨hc, hs', r', b, hh', hr.symm, htail, hend⟩⟩
  · rintro ⟨h4, ⟨b, hs, hend⟩ | ⟨hc, hs, r', b, hh, rfl, htail, hend⟩⟩
    · rw [List.append_assoc] at hend
      exact Or.inl ⟨_, (groups_colon hd).mpr ⟨⟨hne, h4⟩, b, hs, rfl⟩, hend⟩
    · refine Or.inr ⟨hc, h :: hs, r', b, List.forall_mem_cons.mpr ⟨⟨hne, hd, h4⟩, hh⟩, ?_, htail, ?_⟩
      · simp [lead]
      · rw [List.flatMap_cons, ← List.append_assoc]
        exact hend

theorem derives_dot (hd : ∀ b ∈ h, isXdigit b = true) :
    Derives colonp tmp (h ++ dot :: r) t ↔ h.length ≤ 4 ∧
      ∃ b, inetPton4 (h ++ dot :: r) = some b ∧ ending colonp (tmp ++ b) = some t := by
  constructor
  · rintro (⟨b, hs, hend⟩ | ⟨-, hs, r', b, hh, he, -⟩)
    · obtain ⟨h4, hq⟩ := (groups_dot hd).mp hs
      exact ⟨h4, b, hq, hend⟩
    · exact absurd ((lead_cut hh hd dot_no_digit).mp he.symm).1 (by decide)
  · rintro ⟨h4, b, hq, hend⟩
    exact Or.inl ⟨b, (groups_dot hd).mpr ⟨h4, hq⟩, hend⟩

theorem derives_other {b : Byte} (hd : ∀ b ∈ h, isXdigit b = true) (hb : isXdigit b = false)
    (hcolon : b ≠ colon) (hdot : b ≠ dot) : ¬Derives colonp tmp (h ++ b :: r) t := by
  rintro (⟨_, hs, -⟩ | ⟨-, hs, r', _, hh, he, -⟩)
  · exact groups_other hd hb hcolon hdot hs
  · exact hcolon ((lead_cut hh hd hb).mp he.symm).1

theorem ending_room (h : ending colonp tmp = some t) : tmp.length ≤ in6addrsz := by
  unfold ending at h
  unfold in6addrsz at *
  split at h
  · split at h
    · omega
    · cases h
  · split at h
    · omega
    · cases h

theorem ending_guard (b : List Byte) : (if tmp.length + b.length ≤ in6addrsz then
    ending colonp (tmp ++ b) else none) = ending colonp (tmp ++ b) := by
  by_cases hroom : tmp.length + b.length ≤ in6addrsz
  · rw [if_pos hroom]
  · rw [if_neg hroom, eq_comm, Option.eq_none_iff_forall_not_mem]
    intro t ht
    have h := ending_room ht
    rw [List.length_append] at h
    exact hroom h

theorem derives_room (h : Derives colonp tmp r t) : tmp.length ≤ in6addrsz := by
  rcases h with ⟨b, -, hend⟩ | ⟨-, hs, r, b, -, -, -, hend⟩
  · have hroom := ending_room hend
    rw [List.length_append] at hroom
    omega
  · have hroom := ending_room hend
    rw [List.length_append, List.length_append] at hroom
    omega

theorem derives_some (h : Derives colonp tmp r t) : r ≠ [] := by
  rintro rfl
  exact ((derives_end (by simp)).mp h).1.1 rfl

end

/-- From the start of a token the loop returns what the grammar derives, token by token. -/
theorem run_iff {colonp : Option Nat} {tmp s t : List Byte} (hg : Pton6.Good tmp colonp)
    (hs : s ≠ []) : pton6Run s (.start tmp colonp s) = some t ↔ Derives colonp tmp s t := by
  induction hn : s.length using Nat.strong_induction_on generalizing s tmp colonp with
  | _ n ih =>
    have hcut := List.takeWhile_append_dropWhile (p := isXdigit) (l := s)
    have hd := List.all_eq_true.mp (List.all_takeWhile (p := isXdigit) (l := s))
    have hstop := List.head?_dropWhile_not isXdigit s
    generalize s.takeWhile isXdigit = h at hcut hd
    generalize s.dropWhile isXdigit = rest at hcut hstop
    subst hcut
    rw [run_digits _ hd]
    cases rest with
    | nil =>
      rw [List.append_nil] at hs ⊢
      rw [derives_end hd]
      by_cases h4 : h.length ≤ 4
      · rw [if_pos h4, token_end hg _ hs, ← length_hextetOf h, ending_guard]
        simp [hs, h4]
      · simp [h4]
    | cons b r =>
      have hb : isXdigit b = false := by simpa using hstop
      rw [List.length_append, List.length_cons] at hn
      by_cases hcolon : b = colon
      · subst hcolon
        by_cases hne : h = []
        · subst hne
          rw [List.nil_append, derives_colons, if_pos (by simp), token_colons]
          by_cases hc : colonp = none
          · have hg' : Pton6.Good tmp (some tmp.length) :=
              ⟨hg.even, hg.room, fun c hc => by cases hc; exact Nat.le_refl _⟩
            rw [if_pos hc]
            by_cases hr : r = []
            · subst hr
              have hno : ¬Derives (some tmp.length) tmp [] t := fun h => derives_some h rfl
              simp only [hc, hno, true_and, or_false]
              exact Iff.of_eq (congrArg (· = some t) (token_nil hg' []))
            · rw [ih r.length (by simp at hn; omega) hg' hr rfl]
              simp [hc, hr]
          · simp [hc]
        · rw [derives_colon hne hd]
          by_cases h4 : h.length ≤ 4
          · rw [if_pos h4, token_colon _ _ hne]
            by_cases hr : r ≠ [] ∧ tmp.length + 2 ≤ in6addrsz
            · have hg' : Pton6.Good (tmp ++ hextetOf h) colonp :=
                hg.append (by rw [length_hextetOf]) hr.2
              rw [if_pos hr, ih r.length (by omega) hg' hr.1 rfl]
              simp [h4]
            · rw [if_neg hr]
              refine iff_of_false (by simp) fun h => hr ⟨derives_some h.2, ?_⟩
              have hroom := derives_room h.2
              rw [List.length_append, length_hextetOf] at hroom
              exact hroom
          · simp [h4]
      · by_cases hdot : b = dot
        · subst hdot
          rw [derives_dot hd]
          by_cases h4 : h.length ≤ 4
          · rw [if_pos h4, token_dot hg]
            simp only [h4, true_and, ← Option.bind_eq_some_iff]
            cases hq : inetPton4 (h ++ dot :: r) with
            | none => simp
            | some quad =>
              have hlen : quad.length = 4 := by
                obtain ⟨hlen, -, rfl⟩ := inetPton4_some.mp hq
                rw [List.length_map, hlen]
              rw [Option.bind_some, ← hlen, ending_guard]
          · simp [h4]
        · rw [token_other hb hcolon hdot]
          exact iff_of_false (by simp) (derives_other hd hb hcolon hdot)

theorem length_flatMap_hextetOf (hs : List (List Byte)) :
    (hs.flatMap hextetOf).length = 2 * hs.length := by
  induction hs with
  | nil => rfl
  | cons h hs ih =>
    rw [List.flatMap_cons, List.length_append, ih, length_hextetOf, List.length_cons]
    omega

theorem ending_short {l b t : List Byte} : ending (some l.length) (l ++ b) = some t ↔
    l.length + b.length ≤ 14 ∧
      t = l ++ List.replicate (in6addrsz - (l.length + b.length)) 0 ++ b := by
  unfold ending spread
  simp only [List.length_append, List.take_left, List.drop_left]
  by_cases h14 : l.length + b.length ≤ 14
  · rw [if_pos h14, Option.some.injEq, eq_comm]
    exact ⟨fun h => ⟨h14, h⟩, fun h => h.2⟩
  · simp [h14]

theorem intercalate_lead {hs : List (List Byte)} (hne : hs ≠ []) (r : List Byte) :
    [colon].intercalate hs ++ colon :: r = lead hs ++ r := by
  induction hs with
  | nil => exact absurd rfl hne
  | cons h hs ih =>
    cases hs with
    | nil => simp [lead, List.intercalate]
    | cons f hs =>
      rw [List.intercalate_cons_cons, List.append_assoc, List.append_assoc, ih (by simp)]
      simp [lead]

theorem derives_iff {s t : List Byte} : Derives none [] s t ↔
    (Groups s t ∧ t.length = in6addrsz) ∨ ∃ hs r b, (∀ h ∈ hs, IsHextet h) ∧
      s = lead hs ++ colon :: r ∧ (r = [] ∧ b = [] ∨ Groups r b) ∧ 2 * hs.length + b.length ≤ 14 ∧
      t = hs.flatMap hextetOf ++ List.replicate (in6addrsz - (2 * hs.length + b.length)) 0 ++ b := by
  have hfull : (∃ b, Groups s b ∧ ending none ([] ++ b) = some t) ↔
      Groups s t ∧ t.length = in6addrsz := by
    constructor
    · rintro ⟨b, hs, hend⟩
      by_cases h16 : b.length = in6addrsz
      · simp only [List.nil_append, ending, h16, if_true, Option.some.injEq] at hend
        exact hend ▸ ⟨hs, h16⟩
      · simp [ending, h16] at hend
    · rintro ⟨hs, h16⟩
      exact ⟨t, hs, by simp [ending, h16]⟩
  unfold Derives
  rw [hfull]
  simp only [List.nil_append, true_and]
  refine or_congr_right (exists_congr fun hs => exists_congr fun r => exists_congr fun b => ?_)
  rw [ending_short, length_flatMap_hextetOf]

theorem groups_head {r t : List Byte} : ¬Groups (colon :: r) t := fun h =>
  ((groups_colon (h := []) (by simp)).mp h).1.1 rfl

theorem lead_head {hs : List (List Byte)} {s r : List Byte} (hh : ∀ h ∈ hs, IsHextet h)
    (he : lead hs ++ colon :: r = colon :: s) : hs = [] ∧ r = s := by
  obtain ⟨-, ⟨rfl, -, rfl⟩ | ⟨hs', rfl, -⟩⟩ :=
    (lead_cut (h := []) hh (by simp) colon_no_digit).mp he
  · exact ⟨rfl, rfl⟩
  · exact absurd rfl (hh [] (List.mem_cons_self ..)).some

/-- Of the two colons the first is passed over if nothing stands before it. -/
theorem ipv6Text_iff {s t : List Byte} : Ipv6Text s t ↔
    (s.head? ≠ some colon ∧ Derives none [] s t) ∨
      ∃ r, s = colon :: colon :: r ∧ Derives none [] (colon :: r) t := by
  simp only [derives_iff]
  constructor
  · intro h
    cases h with
    | full hs h16 =>
      refine Or.inl ⟨fun h => ?_, Or.inl ⟨hs, h16⟩⟩
      obtain ⟨r, rfl⟩ := List.head?_eq_some_iff.mp h
      exact groups_head hs
    | @short hs r b hh ht h14 =>
      by_cases hne : hs = []
      · subst hne
        exact Or.inr ⟨r, rfl, Or.inr ⟨[], r, b, hh, rfl, ht, h14, rfl⟩⟩
      · rw [intercalate_lead hne]
        refine Or.inl ⟨fun h => ?_, Or.inr ⟨hs, r, b, hh, rfl, ht, h14, rfl⟩⟩
        obtain ⟨s, he⟩ := List.head?_eq_some_iff.mp h
        exact hne (lead_head hh he).1
  · rintro (⟨hhead, ⟨hs, h16⟩ | ⟨hs, r, b, hh, rfl, ht, h14, rfl⟩⟩ |
      ⟨r, rfl, ⟨hs, -⟩ | ⟨hs, r', b, hh, he, ht, h14, rfl⟩⟩)
    · exact .full hs h16
    · have hne : hs ≠ [] := by
        rintro rfl
        exact hhead rfl
      rw [← intercalate_lead hne]
      exact .short hh ht h14
    · exact absurd hs groups_head
    · obtain ⟨rfl, rfl⟩ := lead_head hh he.symm
      exact .short hh ht h14

/-- For every text and all bytes: they are read of it exactly if the grammar derives them. -/
theorem inetPton6_some {s t : List Byte} : inetPton6 s = some t ↔ Ipv6Text s t := by
  have hgood : Pton6.Good [] none := ⟨rfl, by simp, by simp⟩
  rw [ipv6Text_iff]
  unfold inetPton6
  by_cases hhead : s.head? = some colon
  · obtain ⟨s, rfl⟩ := List.head?_eq_some_iff.mp hhead
    rw [if_pos hhead]
    by_cases hnext : s.head? = some colon
    · obtain ⟨r, rfl⟩ := List.head?_eq_some_iff.mp hnext
      rw [List.tail_cons, if_pos hnext, run_iff hgood (by simp)]
      simp
    · rw [List.tail_cons, if_neg hnext]
      refine iff_of_false (by simp) ?_
      rintro (⟨h, -⟩ | ⟨r, he, -⟩)
      · exact h hhead
      · cases he
        exact hnext rfl
  · rw [if_neg hhead]
    have hno : ¬∃ r, s = colon :: colon :: r ∧ Derives none [] (colon :: r) t := by
      rintro ⟨r, rfl, -⟩
      exact hhead rfl
    simp only [hhead, hno, or_false, ne_eq, not_false_eq_true, true_and]
    by_cases hs : s = []
    · subst hs
      have hnone : pton6Run [] (.start [] none []) = none := by decide
      rw [hnone]
      exact iff_of_false (by simp) fun h => derives_some h rfl
    · exact run_iff hgood hs

theorem ipv6Text_length {s t : List Byte} (h : Ipv6Text s t) : t.length = in6addrsz := by
  cases h with
  | full _ h16 => exact h16
  | short _ _ h14 =>
    simp only [List.length_append, length_flatMap_hextetOf, List.length_replicate]
    unfold in6addrsz
    omega

/-! ## Writing -/

def xdigit (d : Nat) : Byte := xdigitsL.getD d 0

theorem xdigitOf_xdigit {d : Nat} (h : d < 16) : xdigitOf (xdigit d) = some d := by
  interval_cases d <;> decide

/-- Four digits for two bytes. -/
def writeHextet (a b : Byte) : List Byte :=
  [xdigit (a.toNat / 16), xdigit (a.toNat % 16), xdigit (b.toNat / 16), xdigit (b.toNat % 16)]

theorem writeHextet_digits (a b : Byte) : (writeHextet a b).map xdigitOf =
    [some (a.toNat / 16), some (a.toNat % 16), some (b.toNat / 16), some (b.toNat % 16)] := by
  have ha := a.isLt
  have hb := b.isLt
  simp only [writeHextet, List.map_cons, List.map_nil]
  rw [xdigitOf_xdigit (by omega), xdigitOf_xdigit (by omega), xdigitOf_xdigit (by omega),
    xdigitOf_xdigit (by omega)]

theorem isHextet_write (a b : Byte) : IsHextet (writeHextet a b) := by
  refine ⟨List.cons_ne_nil _ _, fun x hx => ?_, Nat.le_refl 4⟩
  have hmem := List.mem_map_of_mem (f := xdigitOf) hx
  rw [writeHextet_digits] at hmem
  unfold isXdigit
  cases hd : xdigitOf x with
  | none => simp [hd] at hmem
  | some d => rfl

theorem hextetOf_write (a b : Byte) : hextetOf (writeHextet a b) = [a, b] := by
  have ha := a.isLt
  have hb := b.isLt
  have hval : hexOf (writeHextet a b) = a.toNat * 256 + b.toNat := by
    have hmap := congrArg (List.map fun d => Option.getD d 0) (writeHextet_digits a b)
    rw [List.map_map] at hmap
    unfold hexOf
    rw [show (fun x => (xdigitOf x).getD 0) = (fun d => Option.getD d 0) ∘ xdigitOf from rfl, hmap]
    simp only [Numeral.value, List.map_cons, List.map_nil, List.foldl_cons, List.foldl_nil,
      Option.getD_some]
    omega
  unfold hextetOf
  rw [hval, store16_rteCpuToBe16]
  simp only [List.cons.injEq, and_true]
  constructor
  · apply BitVec.eq_of_toNat_eq
    rw [BitVec.toNat_setWidth, BitVec.toNat_ushiftRight, BitVec.toNat_ofNat,
      Nat.shiftRight_eq_div_pow]
    omega
  · apply BitVec.eq_of_toNat_eq
    rw [BitVec.toNat_setWidth, BitVec.toNat_ofNat]
    omega

def writeGroups : List Byte → List Byte
  | [] => []
  | [_] => []
  | [a, b] => writeHextet a b
  | a :: b :: c :: t => writeHextet a b ++ colon :: writeGroups (c :: t)

theorem groups_write {t : List Byte} (hne : t ≠ []) (heven : t.length % 2 = 0) :
    Groups (writeGroups t) t ∧ 2 * (writeGroups t).length + 2 = 5 * t.length := by
  fun_induction writeGroups t with
  | case1 => exact absurd rfl hne
  | case2 a => simp at heven
  | case3 a b =>
    have h := Groups.hextet (isHextet_write a b)
    rw [hextetOf_write] at h
    exact ⟨h, rfl⟩
  | case4 a b c t ih =>
    obtain ⟨hs, hlen⟩ := ih (by simp) (by simp at heven ⊢; omega)
    have h := Groups.cons (isHextet_write a b) hs
    rw [hextetOf_write] at h
    refine ⟨h, ?_⟩
    simp only [writeHextet, List.length_append, List.length_cons, List.length_nil] at hlen ⊢
    omega

/-- For every text: it is taken exactly if it fits and the grammar derives bytes of it, which are
then what is returned, sixteen of them; and all sixteen bytes there are can be written. -/
theorem parseIpv6Addr_iff (s : List Byte) :
    (∀ t, parseIpv6Addr s = some t ↔ Ipv6Text s t ∧ s.length < inet6Addrstrlen) ∧
    (∀ t, parseIpv6Addr s = some t → t.length = in6addrsz) ∧
    ∀ t, t.length = in6addrsz → parseIpv6Addr (writeGroups t) = some t := by
  have read : ∀ s t, parseIpv6Addr s = some t ↔ Ipv6Text s t ∧ s.length < inet6Addrstrlen := by
    intro s t
    unfold parseIpv6Addr
    by_cases hlen : s.length < inet6Addrstrlen
    · rw [if_neg (Nat.not_le.mpr hlen), inetPton6_some]
      simp [hlen]
    · rw [if_pos (Nat.le_of_not_lt hlen)]
      simp [hlen]
  refine ⟨read s, fun t ht => ipv6Text_length ((read s t).mp ht).1, fun t ht => ?_⟩
  have hne : t ≠ [] := by
    rintro rfl
    cases ht
  obtain ⟨hs, hlen⟩ := groups_write hne (by rw [ht]; rfl)
  rw [ht] at hlen
  refine (read _ t).mpr ⟨.full hs ht, ?_⟩
  unfold in6addrsz at hlen
  unfold inet6Addrstrlen
  omega

example : parseIpv6Addr (ascii "fe80::10.0.0.1") =
    some [0xfe, 0x80, 0, 0, 0, 0, 0, 0, 0, 0, 0, 0, 10, 0, 0, 1] := by decide

end TcpDpdk
