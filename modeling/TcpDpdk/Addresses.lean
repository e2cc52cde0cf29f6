import TcpDpdk.Operands

/-!
# Addresses as text

`parse_ipv4_addr` reads the dotted quad that `string_to_ip` only skims: `inetPton4_some` says
that it takes a text exactly if its parts between the dots are four numbers of an octet.
-/

namespace TcpDpdk

/-! ## IPv4 -/

/-- `tmp` is `before` and, where `tp` points, `octet`. -/
structure Pton4 where
  before : List Byte
  octet : Byte
  sawDigit : Bool
  octets : Nat

def pton4Step (st : Pton4) (ch : Byte) : Option Pton4 :=
  if isDigit ch then
    let new := st.octet.toNat * 10 + digitOf ch
    if new > 255 then none
    else if st.sawDigit then some { st with octet := BitVec.ofNat 8 new }
    else if st.octets + 1 > 4 then none
    else some ⟨st.before, BitVec.ofNat 8 new, true, st.octets + 1⟩
  else if ch = dot ∧ st.sawDigit = true then
    if st.octets = 4 then none else some ⟨st.before ++ [st.octet], 0, false, st.octets⟩
  else none

/-- `none` for a return of zero, which leaves `dst` alone. -/
def inetPton4 (src : List Byte) : Option (List Byte) :=
  (src.foldlM pton4Step ⟨[], 0, false, 0⟩).bind fun st =>
    if st.octets < 4 then none else some (st.before ++ [st.octet])

def inetAddrstrlen : Nat := 16

def parseIpv4Addr (token : List Byte) : Option (List Byte) :=
  if token.length ≥ inetAddrstrlen then none else inetPton4 token

/-- `tp` is inside of `tmp`, and `octets` counts the numbers begun. -/
structure Pton4.Inside (st : Pton4) : Prop where
  room : st.before.length < 4
  count : st.octets = st.before.length + if st.sawDigit then 1 else 0

def octetOf (f : List Byte) : Byte := BitVec.ofNat 8 (valueOf f)

/-- The value of more digits behind the value `v`. -/
def valueFrom (v : Nat) (f : List Byte) : Nat := f.foldl (fun v b => 10 * v + digitOf b) v

theorem valueFrom_zero (f : List Byte) : valueFrom 0 f = valueOf f := by
  unfold valueFrom valueOf Numeral.value
  rw [List.foldl_map]

theorem le_valueFrom (v : Nat) (f : List Byte) : v ≤ valueFrom v f := by
  induction f generalizing v with
  | nil => exact Nat.le_refl v
  | cons b f ih =>
    have h := ih (10 * v + digitOf b)
    unfold valueFrom at h ⊢
    rw [List.foldl_cons]
    omega

theorem splitOn_digit {b : Byte} (hb : b ≠ dot) (s : List Byte) :
    (b :: s).splitOn dot = (s.splitOn dot).modifyHead (List.cons b) := by
  rw [List.splitOn_cons_eq_if_modifyHead, if_neg (by simpa using hb)]

theorem splitOn_dot (s : List Byte) : (dot :: s).splitOn dot = [] :: s.splitOn dot := by
  rw [List.splitOn_cons_eq_if_modifyHead, if_pos (by simp)]

theorem digit_ne_dot {b : Byte} (h : isDigit b = true) : b ≠ dot := by
  rintro rfl
  exact absurd h (by decide)

/-- What the loop makes of a text from some point on. -/
structure Quad4 (st : Pton4) (f : List Byte) (fs : List (List Byte)) (t : List Byte) : Prop where
  digits : ∀ b ∈ f, isDigit b = true
  small : valueFrom st.octet.toNat f ≤ 255
  some : st.sawDigit = false → f ≠ []
  rest : ∀ g ∈ fs, IsNumber 255 g
  length : st.before.length + 1 + fs.length = 4
  value : t = st.before ++ BitVec.ofNat 8 (valueFrom st.octet.toNat f) :: fs.map octetOf

theorem valueFrom_cons (v : Nat) (b : Byte) (f : List Byte) :
    valueFrom v (b :: f) = valueFrom (v * 10 + digitOf b) f := by
  unfold valueFrom
  rw [List.foldl_cons, Nat.mul_comm]

theorem toNat_octet {m : Nat} (h : m ≤ 255) : (BitVec.ofNat 8 m).toNat = m := by
  rw [BitVec.toNat_ofNat]
  omega

section
variable {st : Pton4} {t : List Byte}

theorem quad4_end (h : st.Inside) :
    (if st.octets < 4 then none else some (st.before ++ [st.octet])) = some t ↔
      Quad4 st [] [] t := by
  obtain ⟨hroom, hcount⟩ := h
  have hoctet : BitVec.ofNat 8 (valueFrom st.octet.toNat []) = st.octet := BitVec.ofNat_toNat 8 _
  constructor
  · intro hr
    by_cases h4 : st.octets < 4
    · simp [h4] at hr
    · rw [if_neg h4] at hr
      cases hr
      refine ⟨by simp, ?_, fun hsaw => ?_, by simp, ?_, ?_⟩
      · exact Nat.le_of_lt_succ st.octet.isLt
      · simp [hsaw] at hcount
        omega
      · show st.before.length + 1 = 4
        by_cases hsaw : st.sawDigit = true <;> simp [hsaw] at hcount <;> omega
      · rw [hoctet]
        rfl
  · intro hq
    have hsaw : st.sawDigit = true := by
      by_contra hne
      exact hq.some (Bool.eq_false_iff.mpr hne) rfl
    have hlen : st.before.length + 1 = 4 := hq.length
    simp [hsaw] at hcount
    rw [if_neg (by omega), hq.value, hoctet]
    rfl

theorem quad4_digit {b : Byte} {f : List Byte} {fs : List (List Byte)} {n : Nat}
    (hb : isDigit b = true) (hnew : st.octet.toNat * 10 + digitOf b ≤ 255) :
    Quad4 ⟨st.before, BitVec.ofNat 8 (st.octet.toNat * 10 + digitOf b), true, n⟩ f fs t ↔
      Quad4 st (b :: f) fs t := by
  have hvalue : valueFrom (BitVec.ofNat 8 (st.octet.toNat * 10 + digitOf b)).toNat f =
      valueFrom st.octet.toNat (b :: f) := by
    rw [toNat_octet hnew, valueFrom_cons]
  constructor
  · rintro ⟨hd, hs, -, hrest, hlen, hval⟩
    rw [hvalue] at hs hval
    exact ⟨List.forall_mem_cons.mpr ⟨hb, hd⟩, hs, by simp, hrest, hlen, hval⟩
  · rintro ⟨hd, hs, -, hrest, hlen, hval⟩
    refine ⟨(List.forall_mem_cons.mp hd).2, ?_, by simp, hrest, hlen, ?_⟩
    · rw [hvalue]
      exact hs
    · rw [hvalue]
      exact hval

theorem quad4_dot {f : List Byte} {fs : List (List Byte)} {n : Nat} (hsaw : st.sawDigit = true) :
    Quad4 ⟨st.before ++ [st.octet], 0, false, n⟩ f fs t ↔ Quad4 st [] (f :: fs) t := by
  have hoctet : BitVec.ofNat 8 (valueFrom st.octet.toNat []) = st.octet := BitVec.ofNat_toNat 8 _
  have hzero : valueFrom (0 : Byte).toNat f = valueOf f := valueFrom_zero f
  constructor
  · rintro ⟨hd, hs, hne, hrest, hlen, hval⟩
    dsimp only at hs hlen hval
    rw [hzero] at hs hval
    refine ⟨by simp, Nat.le_of_lt_succ st.octet.isLt, fun h => ?_, ?_, ?_, ?_⟩
    · cases hsaw.symm.trans h
    · exact List.forall_mem_cons.mpr ⟨⟨hne rfl, hd, hs⟩, hrest⟩
    · rw [List.length_append] at hlen
      simp only [List.length_cons, List.length_nil] at hlen ⊢
      omega
    · rw [hval, hoctet, List.append_assoc]
      rfl
  · rintro ⟨-, -, -, hrest, hlen, hval⟩
    obtain ⟨⟨hne, hd, hs⟩, hrest⟩ := List.forall_mem_cons.mp hrest
    refine ⟨hd, ?_, fun _ => hne, hrest, ?_, ?_⟩
    · rw [hzero]
      exact hs
    · simp only [List.length_append, List.length_cons, List.length_nil] at hlen ⊢
      omega
    · rw [hval, hzero, hoctet, List.append_assoc]
      rfl

theorem step_digit (h : st.Inside) {b : Byte} (hb : isDigit b = true) : pton4Step st b =
    if st.octet.toNat * 10 + digitOf b ≤ 255 then
      some ⟨st.before, BitVec.ofNat 8 (st.octet.toNat * 10 + digitOf b), true, st.before.length + 1⟩
    else none := by
  obtain ⟨hroom, hcount⟩ := h
  unfold pton4Step
  rw [if_pos hb]
  by_cases hnew : st.octet.toNat * 10 + digitOf b ≤ 255
  · rw [if_pos hnew]
    by_cases hsaw : st.sawDigit = true
    · simp [hsaw] at hcount
      simp [hsaw, hcount, Nat.not_lt.mpr hnew]
    · simp [hsaw] at hcount
      have h4 : ¬4 < st.before.length + 1 := by omega
      simp [hsaw, hcount, Nat.not_lt.mpr hnew, h4]
  · simp [hnew, Nat.lt_of_not_le hnew]

theorem step_dot (h : st.Inside) : pton4Step st dot =
    if st.sawDigit = true ∧ st.before.length + 1 < 4 then
      some ⟨st.before ++ [st.octet], 0, false, st.before.length + 1⟩
    else none := by
  obtain ⟨hroom, hcount⟩ := h
  have hb : isDigit dot = false := rfl
  unfold pton4Step
  by_cases hsaw : st.sawDigit = true
  · simp [hsaw] at hcount
    by_cases h4 : st.before.length + 1 < 4
    · simp [hb, hsaw, hcount, h4, Nat.ne_of_lt h4]
    · have h4' : st.before.length + 1 = 4 := by omega
      simp [hb, hsaw, hcount, h4']
  · simp [hb, hsaw]

theorem step_inside (h : st.Inside) {b : Byte} {st' : Pton4} (hst : pton4Step st b = some st') :
    st'.Inside := by
  by_cases hb : isDigit b = true
  · rw [step_digit h hb] at hst
    split at hst
    · cases hst
      exact ⟨h.room, by simp⟩
    · cases hst
  · by_cases hdot : b = dot
    · rw [hdot, step_dot h] at hst
      split at hst
      · rename_i hc
        cases hst
        exact ⟨by simpa using hc.2, by simp⟩
      · cases hst
    · simp [pton4Step, hb, hdot] at hst

theorem quad4_step (h : st.Inside) {b : Byte} {s g : List Byte} {gs : List (List Byte)}
    (hg : s.splitOn dot = g :: gs) :
    (∃ f fs, (b :: s).splitOn dot = f :: fs ∧ Quad4 st f fs t) ↔
      ∃ st', pton4Step st b = some st' ∧ Quad4 st' g gs t := by
  by_cases hdot : b = dot
  · subst hdot
    rw [splitOn_dot, hg, step_dot h]
    have hcell : ∀ {f fs}, ([] :: g :: gs : List (List Byte)) = f :: fs ↔ f = [] ∧ fs = g :: gs :=
      fun {_ _} => by rw [List.cons.injEq, eq_comm, @eq_comm _ (g :: gs)]
    simp only [hcell]
    constructor
    · rintro ⟨_, _, ⟨rfl, rfl⟩, hq⟩
      have hsaw : st.sawDigit = true := by
        by_contra hne
        exact hq.some (Bool.eq_false_iff.mpr hne) rfl
      have hlen := hq.length
      rw [List.length_cons] at hlen
      have h4 : st.before.length + 1 < 4 := by omega
      rw [if_pos ⟨hsaw, h4⟩]
      exact ⟨_, rfl, (quad4_dot hsaw).mpr hq⟩
    · rintro ⟨st', hst, hq⟩
      by_cases hc : st.sawDigit = true ∧ st.before.length + 1 < 4
      · rw [if_pos hc] at hst
        cases hst
        exact ⟨_, _, ⟨rfl, rfl⟩, (quad4_dot hc.1).mp hq⟩
      · rw [if_neg hc] at hst
        cases hst
  · rw [splitOn_digit hdot, hg]
    by_cases hb : isDigit b = true
    · rw [step_digit h hb]
      constructor
      · rintro ⟨_, _, he, hq⟩
        cases he
        have hnew : st.octet.toNat * 10 + digitOf b ≤ 255 := by
          have hsmall := hq.small
          rw [valueFrom_cons] at hsmall
          exact (le_valueFrom ..).trans hsmall
        rw [if_pos hnew]
        exact ⟨_, rfl, (quad4_digit hb hnew).mpr hq⟩
      · rintro ⟨st', hst, hq⟩
        by_cases hnew : st.octet.toNat * 10 + digitOf b ≤ 255
        · rw [if_pos hnew] at hst
          cases hst
          exact ⟨_, _, rfl, (quad4_digit hb hnew).mp hq⟩
        · rw [if_neg hnew] at hst
          cases hst
    · have hstep : pton4Step st b = none := by simp [pton4Step, hb, hdot]
      rw [hstep]
      constructor
      · rintro ⟨_, _, he, hq⟩
        cases he
        exact absurd (hq.digits b (List.mem_cons_self ..)) hb
      · rintro ⟨_, hst, -⟩
        cases hst

end

/-- From a state inside of `tmp` the loop stays there, and what it returns is read off the
parts of the text. -/
theorem pton4_iff {s : List Byte} {st : Pton4} (h : st.Inside) {t : List Byte} :
    ((s.foldlM pton4Step st).bind fun st =>
      if st.octets < 4 then none else some (st.before ++ [st.octet])) = some t ↔
      ∃ f fs, s.splitOn dot = f :: fs ∧ Quad4 st f fs t := by
  induction s generalizing st with
  | nil =>
    rw [List.splitOn_nil, List.foldlM_nil]
    refine (quad4_end h).trans ⟨fun hq => ⟨[], [], rfl, hq⟩, ?_⟩
    rintro ⟨f, fs, he, hq⟩
    cases he
    exact hq
  | cons b s ih =>
    obtain ⟨g, gs, hg⟩ := List.exists_cons_of_ne_nil (List.splitOn_ne_nil dot s)
    rw [quad4_step h hg, List.foldlM_cons]
    cases hstep : pton4Step st b with
    | none => simp
    | some st' =>
      refine (ih (step_inside h hstep)).trans ?_
      simp [hg]

theorem pton4_start : Pton4.Inside ⟨[], 0, false, 0⟩ := ⟨by simp, by simp⟩

theorem inetPton4_some {s t : List Byte} : inetPton4 s = some t ↔ (s.splitOn dot).length = 4 ∧
    (∀ f ∈ s.splitOn dot, IsNumber 255 f) ∧ t = (s.splitOn dot).map octetOf := by
  unfold inetPton4
  rw [pton4_iff pton4_start]
  obtain ⟨f, fs, hs⟩ := List.exists_cons_of_ne_nil (List.splitOn_ne_nil dot s)
  rw [hs]
  have hzero : valueFrom (0 : Byte).toNat f = valueOf f := valueFrom_zero f
  constructor
  · rintro ⟨_, _, he, hd, hsmall, hne, hrest, hlen, hval⟩
    cases he
    dsimp only at hsmall hlen hval
    rw [hzero] at hsmall hval
    refine ⟨?_, List.forall_mem_cons.mpr ⟨⟨hne rfl, hd, hsmall⟩, hrest⟩, hval⟩
    simpa [Nat.add_comm] using hlen
  · rintro ⟨hlen, hnum, hval⟩
    obtain ⟨⟨hne, hd, hsmall⟩, hrest⟩ := List.forall_mem_cons.mp hnum
    refine ⟨f, fs, rfl, hd, ?_, fun _ => hne, hrest, ?_, ?_⟩
    · rw [hzero]
      exact hsmall
    · simpa [Nat.add_comm] using hlen
    · rw [hzero, hval]
      rfl

theorem foldlM_inside {s : List Byte} {st st' : Pton4} (h : st.Inside)
    (hs : s.foldlM pton4Step st = some st') : st'.Inside := by
  induction s generalizing st with
  | nil =>
    cases hs
    exact h
  | cons b s ih =>
    rw [List.foldlM_cons] at hs
    obtain ⟨st₁, hst, hs⟩ := Option.bind_eq_some_iff.mp hs
    exact ih (step_inside h hst) hs

theorem isNumber_no_dot {m : Nat} {a : List Byte} (h : IsNumber m a) : dot ∉ a := fun hmem =>
  digit_ne_dot (h.2.1 dot hmem) rfl

theorem dottedQuad_iff {s : List Byte} : DottedQuad s ↔
    (s.splitOn dot).length = 4 ∧ ∀ f ∈ s.splitOn dot, IsNumber 255 f := by
  constructor
  · rintro ⟨a, b, c, d, ha, hb, hc, hd, rfl⟩
    rw [List.splitOn_append_cons_self_of_not_mem (isNumber_no_dot ha),
      List.splitOn_append_cons_self_of_not_mem (isNumber_no_dot hb),
      List.splitOn_append_cons_self_of_not_mem (isNumber_no_dot hc),
      List.splitOn_eq_singleton (isNumber_no_dot hd)]
    simp [ha, hb, hc, hd]
  · rintro ⟨hlen, hnum⟩
    have hs : [dot].intercalate (s.splitOn dot) = s := List.intercalate_splitOn dot
    generalize s.splitOn dot = fs at hlen hnum hs
    match fs, hlen with
    | [a, b, c, d], _ =>
      simp only [List.forall_mem_cons] at hnum
      obtain ⟨ha, hb, hc, hd, -⟩ := hnum
      refine ⟨a, b, c, d, ha, hb, hc, hd, hs.symm.trans ?_⟩
      simp [List.intercalate]

theorem store32_rteCpuToBe32 (x : BitVec 32) : store32 (rteCpuToBe32 x) =
    [(x >>> 24).setWidth 8, (x >>> 16).setWidth 8, (x >>> 8).setWidth 8, x.setWidth 8] := by
  show [_, _, _, _] = [_, _, _, _]
  simp only [List.cons.injEq, and_true, rteCpuToBe32, rteBswap32]
  refine ⟨?_, ?_, ?_, ?_⟩ <;> (ext i hi; interval_cases i <;> simp)

theorem store32_octets (a b c d : Byte) :
    store32 (rteCpuToBe32 (a.setWidth 32 <<< 24 ||| b.setWidth 32 <<< 16 ||| c.setWidth 32 <<< 8 |||
      d.setWidth 32)) = [a, b, c, d] := by
  rw [store32_rteCpuToBe32]
  simp only [List.cons.injEq, and_true]
  refine ⟨?_, ?_, ?_, ?_⟩ <;> (ext i hi; interval_cases i <;> simp)

theorem length_printU {n : Nat} (h : n ≤ 255) : (printU n).length ≤ 3 := by
  unfold printU Numeral.digits
  rw [List.length_map]
  by_cases h0 : n = 0
  · simp [h0]
  · rw [if_neg h0, List.length_reverse, Nat.digits_length_le_iff (by decide)]
    omega

theorem length_printIpv4 (addr : BitVec 32) : (printIpv4 addr).length < inetAddrstrlen := by
  have h1 := length_printU (octet_le (addr >>> 24))
  have h2 := length_printU (octet_le (addr >>> 16))
  have h3 := length_printU (octet_le (addr >>> 8))
  have h4 := length_printU (octet_le addr)
  unfold printIpv4 inetAddrstrlen
  simp only [List.length_append, List.length_cons]
  omega

/-- A dotted quad is read as `string_to_ip` reads it, and is in memory as it goes on the wire. -/
theorem inetPton4_stringToIp {s t : List Byte} (h : inetPton4 s = some t) :
    ∃ addr, stringToIp s = some addr ∧ t = store32 (rteCpuToBe32 addr) := by
  obtain ⟨hlen, hnum, ht⟩ := inetPton4_some.mp h
  obtain ⟨a, b, c, d, ha, hb, hc, hd, rfl⟩ := dottedQuad_iff.mpr ⟨hlen, hnum⟩
  refine ⟨_, stringToIp_number ha hb hc hd, ?_⟩
  rw [store32_octets, ht, List.splitOn_append_cons_self_of_not_mem (isNumber_no_dot ha),
    List.splitOn_append_cons_self_of_not_mem (isNumber_no_dot hb),
    List.splitOn_append_cons_self_of_not_mem (isNumber_no_dot hc),
    List.splitOn_eq_singleton (isNumber_no_dot hd)]
  rfl

theorem dottedQuad_print (addr : BitVec 32) : DottedQuad (printIpv4 addr) :=
  ⟨_, _, _, _, isNumber_printU (octet_le _), isNumber_printU (octet_le _),
    isNumber_printU (octet_le _), isNumber_printU (octet_le _), rfl⟩

/-- For every text: it is taken exactly if it is a dotted quad that fits, it is then what
`string_to_ip` makes of it, and `tp` never leaves `tmp`; what is printed is read back. -/
theorem parseIpv4Addr_iff (s : List Byte) :
    (parseIpv4Addr s ≠ none ↔ DottedQuad s ∧ s.length < inetAddrstrlen) ∧
    (∀ t, parseIpv4Addr s = some t →
      ∃ addr, stringToIp s = some addr ∧ t = store32 (rteCpuToBe32 addr)) ∧
    (∀ s₁ s₂ st, s = s₁ ++ s₂ → s₁.foldlM pton4Step ⟨[], 0, false, 0⟩ = some st →
      st.before.length < 4) ∧
    ∀ addr, parseIpv4Addr (printIpv4 addr) = some (store32 (rteCpuToBe32 addr)) := by
  have taken : ∀ s : List Byte,
      parseIpv4Addr s ≠ none ↔ DottedQuad s ∧ s.length < inetAddrstrlen := by
    intro s
    unfold parseIpv4Addr
    by_cases hlen : s.length ≥ inetAddrstrlen
    · rw [if_pos hlen]
      exact iff_of_false (fun h => h rfl) fun h => absurd h.2 (Nat.not_lt.mpr hlen)
    · rw [if_neg hlen, Option.ne_none_iff_exists', dottedQuad_iff]
      simp only [inetPton4_some]
      constructor
      · rintro ⟨t, h4, hnum, -⟩
        exact ⟨⟨h4, hnum⟩, Nat.lt_of_not_le hlen⟩
      · rintro ⟨⟨h4, hnum⟩, -⟩
        exact ⟨_, h4, hnum, rfl⟩
  have same : ∀ {s t : List Byte}, parseIpv4Addr s = some t →
      ∃ addr, stringToIp s = some addr ∧ t = store32 (rteCpuToBe32 addr) := by
    intro s t h
    unfold parseIpv4Addr at h
    split at h
    · cases h
    · exact inetPton4_stringToIp h
  refine ⟨taken s, fun _ => same, fun s₁ s₂ st _ hst => (foldlM_inside pton4_start hst).room, ?_⟩
  intro addr
  obtain ⟨t, ht⟩ := Option.ne_none_iff_exists'.mp
    ((taken (printIpv4 addr)).mpr ⟨dottedQuad_print addr, length_printIpv4 addr⟩)
  obtain ⟨x, hx, rfl⟩ := same ht
  rw [stringToIp_print] at hx
  cases hx
  exact ht

end TcpDpdk
