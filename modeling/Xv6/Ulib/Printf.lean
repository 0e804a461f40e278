import Mathlib.Data.BitVec
import Mathlib.Tactic.Ring

/-!
# Numbers in `printf`

The kernel (`kernel/printf.c`) and the user library (`user/printf.c`) have the same formats. Both write the digits of a
number to `char buf[20]`, the last one first, and then send them the other way round. The kernel's working variable has
64 bits; its numerals are exact for every argument (`Kernel.printint_exact`). That of the user library is a `uint`, so
the 64-bit formats print a number exactly if its absolute value fits in 32 bits (`vprintf_long_iff`).
-/

namespace Xv6.Ulib

/-! ## Numerals -/

/-- The value of a digit. -/
def digitVal (c : Char) : Option Nat :=
  if '0' ≤ c ∧ c ≤ '9' then some (c.toNat - '0'.toNat)
  else if 'a' ≤ c ∧ c ≤ 'f' then some (c.toNat - 'a'.toNat + 10)
  else if 'A' ≤ c ∧ c ≤ 'F' then some (c.toNat - 'A'.toNat + 10)
  else none

/-- The value of a numeral without a sign. -/
def numVal (b : Nat) (l : List Char) : Nat := l.foldl (fun n c => b * n + (digitVal c).getD 0) 0

/-- The value of a numeral. -/
def readBack (b : Nat) : List Char → Int
  | '-' :: l => -(numVal b l : Int)
  | l => numVal b l

/-- A numeral without a sign and without leading zeros. -/
structure IsNumeral (b : Nat) (l : List Char) : Prop where
  digit : ∀ c ∈ l, ∃ d < b, digitVal c = some d
  lead : l = ['0'] ∨ ∃ c t, l = c :: t ∧ c ≠ '0'

variable {b : Nat} {l : List Char} {sign : Bool} {xx : BitVec 64}

theorem numVal_snoc {c : Char} : numVal b (l ++ [c]) = b * numVal b l + (digitVal c).getD 0 := by
  unfold numVal
  rw [List.foldl_append]
  rfl

theorem IsNumeral.readBack_eq (h : IsNumeral b l) : readBack b l = numVal b l := by
  unfold readBack
  split
  · obtain ⟨d, -, hd⟩ := h.digit '-' List.mem_cons_self
    cases hd
  · rfl

theorem IsNumeral.snoc {d : Nat} {c : Char} (h : IsNumeral b l) (h0 : numVal b l ≠ 0)
    (hc : digitVal c = some d) (hd : d < b) : IsNumeral b (l ++ [c]) := by
  refine ⟨fun c' hc' => ?_, ?_⟩
  · rcases List.mem_append.mp hc' with hm | hm
    · exact h.digit c' hm
    · exact ⟨d, hd, by rw [List.mem_singleton.mp hm]; exact hc⟩
  · rcases h.lead with rfl | ⟨c', t, rfl, hne⟩
    · have : numVal b ['0'] = 0 := by simp [numVal, digitVal]
      exact absurd this h0
    · exact .inr ⟨c', t ++ [c], rfl, hne⟩

/-! ## `printint` -/

/-- `buf[i++] = c`; there is no room for it after `char buf[20]`. -/
def bufStore (buf : List Char) (c : Char) : Option (List Char) :=
  if buf.length < 20 then some (buf ++ [c]) else none

/-- `do { buf[i++] = digits[x % base]; } while((x /= base) != 0);` -/
def digitLoop (digits : Nat → Char) (base : Nat) : Nat → Nat → List Char → Option (List Char)
  | 0, _, _ => none
  | fuel + 1, x, buf => do
    let buf ← bufStore buf (digits (x % base))
    if x / base ≠ 0 then digitLoop digits base fuel (x / base) buf else pure buf

/-- What both make of the working variable `x`: the characters in the order in which they are sent. -/
def printDigits (digits : Nat → Char) (base x : Nat) (neg : Bool) : Option (List Char) := do
  let buf ← digitLoop digits base 64 x []
  let buf ← if neg then bufStore buf '-' else pure buf
  pure buf.reverse

/-- The digits of the kernel. -/
def Kernel.digits (i : Nat) : Char := "0123456789abcdef".toList.getD i ' '

/-- The digits of the user library. -/
def digits (i : Nat) : Char := "0123456789ABCDEF".toList.getD i ' '

/-- The number is negative, and the format is for signed numbers. -/
def isNeg (sign : Bool) (xx : BitVec 64) : Bool := sign && decide (xx.toInt < 0)

/-- `printint` of the kernel: `x` is an `unsigned long long`. -/
def Kernel.printint (xx : BitVec 64) (base : Nat) (sign : Bool) : Option (List Char) :=
  let x := if isNeg sign xx then -xx else xx
  printDigits Kernel.digits base x.toNat (isNeg sign xx)

/-- `printint` of the user library: `x` is a `uint`. -/
def printint (xx : BitVec 64) (base : Nat) (sgn : Bool) : Option (List Char) :=
  let x : BitVec 32 := (if isNeg sgn xx then -xx else xx).setWidth 32
  printDigits digits base x.toNat (isNeg sgn xx)

/-- The digits of a base up to 16. -/
def IsTable (dig : Nat → Char) : Prop := dig 0 = '0' ∧ ∀ i < 16, digitVal (dig i) = some i

theorem Kernel.digits_isTable : IsTable Kernel.digits := ⟨rfl, by decide⟩

theorem digits_isTable : IsTable digits := ⟨rfl, by decide⟩

/-- The digits of `x < b ^ k` take at most `k` characters and are its numeral, backwards. -/
theorem digitLoop_spec {dig : Nat → Char} {k x : Nat} (fuel : Nat) (buf : List Char) (ht : IsTable dig) (hb : 1 < b)
    (hb16 : b ≤ 16) (hx : x < b ^ (k + 1)) (hf : k < fuel) (hbuf : buf.length + (k + 1) ≤ 20) :
    ∃ l, digitLoop dig b fuel x buf = some (buf ++ l.reverse) ∧ l.length ≤ k + 1 ∧ IsNumeral b l ∧ numVal b l = x := by
  obtain ⟨fuel, rfl⟩ : ∃ m, fuel = m + 1 := ⟨fuel - 1, by omega⟩
  have hlt : x % b < b := Nat.mod_lt _ (by omega)
  have hdig := ht.2 (x % b) (by omega)
  have hone : numVal b [dig (x % b)] = x % b := by simp [numVal, hdig]
  rw [digitLoop, bufStore, if_pos (by omega), Option.bind_eq_bind, Option.bind_some]
  by_cases h0 : x / b = 0
  · -- the last digit is the first of the numeral
    have hxb : x % b = x := Nat.mod_eq_of_lt ((Nat.div_eq_zero_iff_lt (by omega)).mp h0)
    rw [if_neg (by simp [h0])]
    refine ⟨[dig (x % b)], rfl, by simp, ⟨fun c hc => ?_, ?_⟩, hone.trans hxb⟩
    · rw [List.mem_singleton.mp hc]
      exact ⟨_, hlt, hdig⟩
    · by_cases hz : x = 0
      · exact .inl (by rw [hz, Nat.zero_mod, ht.1])
      · refine .inr ⟨_, [], rfl, fun he => ?_⟩
        rw [he, hxb] at hdig
        exact hz (Option.some.inj (hdig.symm.trans (by decide)))
  · rw [if_pos h0]
    obtain ⟨k, rfl⟩ : ∃ m, k = m + 1 := by
      cases k with
      | zero => exact absurd (Nat.div_eq_of_lt (by rwa [Nat.zero_add, pow_one] at hx)) h0
      | succ m => exact ⟨m, rfl⟩
    have hx' : x / b < b ^ (k + 1) := Nat.div_lt_of_lt_mul (by rwa [← pow_succ'])
    obtain ⟨l, hl, hlen, hnum, hval⟩ := digitLoop_spec fuel (buf ++ [dig (x % b)]) ht hb hb16 hx'
      (by omega) (by rw [List.length_append, List.length_singleton]; omega)
    refine ⟨l ++ [dig (x % b)], ?_, ?_, hnum.snoc (by rw [hval]; exact h0) hdig hlt, ?_⟩
    · rw [hl, List.reverse_append, List.append_assoc]
      rfl
    · rw [List.length_append, List.length_singleton]
      omega
    · rw [numVal_snoc, hval, hdig, Option.getD_some, Nat.div_add_mod]

/-- The sign, and a numeral of at most `k` characters. -/
theorem printDigits_spec {dig : Nat → Char} {k x : Nat} {neg : Bool} (ht : IsTable dig) (hb : 1 < b) (hb16 : b ≤ 16)
    (hx : x < b ^ (k + 1)) (hk : k + 1 + neg.toNat ≤ 20) :
    ∃ l, printDigits dig b x neg = some (if neg then '-' :: l else l) ∧ l.length ≤ k + 1 ∧ IsNumeral b l ∧
      numVal b l = x := by
  obtain ⟨l, hl, hlen, hnum, hval⟩ := digitLoop_spec 64 [] ht hb hb16 hx (by omega)
    (by rw [List.length_nil]; omega)
  refine ⟨l, ?_, hlen, hnum, hval⟩
  unfold printDigits
  rw [hl, List.nil_append, Option.bind_eq_bind, Option.bind_some]
  cases neg with
  | false => simp
  | true =>
    rw [Bool.toNat_true] at hk
    simp only [if_true]
    rw [bufStore, if_pos (by rw [List.length_reverse]; omega), Option.bind_some, List.reverse_append,
      List.reverse_reverse]
    rfl

/-- The argument as a signed or an unsigned number. -/
def argVal (sign : Bool) (xx : BitVec 64) : Int := if sign then xx.toInt else xx.toNat

theorem argVal_eq : argVal sign xx =
    if isNeg sign xx then -((argVal sign xx).natAbs : Int) else (argVal sign xx).natAbs := by
  have hlt := xx.isLt
  unfold argVal isNeg
  cases sign with
  | false => simp
  | true =>
    simp only [Bool.true_and, decide_eq_true_eq, if_true]
    split <;> omega

/-- The kernel's working variable has the absolute value. -/
theorem toNat_natAbs : (if isNeg sign xx then -xx else xx).toNat = (argVal sign xx).natAbs := by
  have h := xx.toInt_eq_toNat_cond
  have hlt := xx.isLt
  unfold argVal isNeg
  cases sign with
  | false => simp
  | true =>
    simp only [Bool.true_and, decide_eq_true_eq, if_true]
    split
    · rw [BitVec.toNat_neg]
      split at h <;> omega
    · split at h <;> omega

theorem natAbs_argVal_lt (sign : Bool) (xx : BitVec 64) :
    (argVal sign xx).natAbs < 2 ^ 64 ∧ (isNeg sign xx = true → (argVal sign xx).natAbs ≤ 2 ^ 63) := by
  have h := xx.toInt_eq_toNat_cond
  have hlt := xx.isLt
  unfold argVal isNeg
  cases sign with
  | false => simpa using hlt
  | true =>
    simp only [Bool.true_and, decide_eq_true_eq, if_true]
    split at h <;> omega

/-- What is read back is the argument if and only if the numeral is that of the absolute value. -/
theorem readBack_eq_iff (hl : IsNumeral b l) :
    readBack b (if isNeg sign xx then '-' :: l else l) = argVal sign xx ↔ numVal b l = (argVal sign xx).natAbs := by
  rw [argVal_eq]
  by_cases h : isNeg sign xx = true
  · simp only [if_pos h]
    show -(numVal b l : Int) = _ ↔ _
    omega
  · simp only [if_neg h, hl.readBack_eq]
    omega

theorem Kernel.printint_spec (xx : BitVec 64) {base : Nat} (hb : base = 10 ∨ base = 16) (sign : Bool) :
    ∃ l, Kernel.printint xx base sign = some (if isNeg sign xx then '-' :: l else l) ∧
      l.length + (isNeg sign xx).toNat ≤ 20 ∧ IsNumeral base l ∧ numVal base l = (argVal sign xx).natAbs := by
  obtain ⟨hlt, hneg⟩ := natAbs_argVal_lt sign xx
  obtain ⟨h1, h16, k, hx, hk⟩ : 1 < base ∧ base ≤ 16 ∧ ∃ k, (argVal sign xx).natAbs < base ^ (k + 1) ∧
      k + 1 + (isNeg sign xx).toNat ≤ 20 := by
    rcases hb with rfl | rfl
    · -- a negative number has at most 19 digits
      cases h : isNeg sign xx with
      | false => exact ⟨by omega, by omega, 19, by omega, by decide⟩
      | true => exact ⟨by omega, by omega, 18, by have := hneg h; omega, by decide⟩
    · refine ⟨by omega, by omega, 15, by omega, ?_⟩
      have := Bool.toNat_le (isNeg sign xx)
      omega
  obtain ⟨l, hl, hlen, hnum, hval⟩ := printDigits_spec Kernel.digits_isTable h1 h16 hx hk
  exact ⟨l, by rw [Kernel.printint, toNat_natAbs]; exact hl, by omega, hnum, hval⟩

/-- The kernel's `printint` never leaves `buf`, and sends the numeral of its argument, with `-` exactly for a negative
number with `sign`. -/
theorem Kernel.printint_exact (xx : BitVec 64) {base : Nat} (hb : base = 10 ∨ base = 16) (sign : Bool) :
    ∃ out, Kernel.printint xx base sign = some out ∧ out.length ≤ 20 ∧
      (∃ l, IsNumeral base l ∧ out = if sign = true ∧ xx.toInt < 0 then '-' :: l else l) ∧
      readBack base out = argVal sign xx := by
  obtain ⟨l, hl, hlen, hnum, hval⟩ := Kernel.printint_spec xx hb sign
  refine ⟨_, hl, ?_, ⟨l, hnum, by simp [isNeg]⟩, (readBack_eq_iff hnum).mpr hval⟩
  cases h : isNeg sign xx with
  | false => simpa [h] using hlen
  | true => simpa [h] using hlen

theorem Kernel.printint_exact_min : Kernel.printint (BitVec.intMin 64) 10 true = some "-9223372036854775808".toList ∧
    readBack 10 "-9223372036854775808".toList = -2 ^ 63 := by
  have hrun : Kernel.printint (BitVec.intMin 64) 10 true = some "-9223372036854775808".toList := by decide +kernel
  obtain ⟨out, hout, -, -, hread⟩ := Kernel.printint_exact (BitVec.intMin 64) (.inl rfl) true
  rw [hrun] at hout
  obtain rfl := Option.some.inj hout
  exact ⟨hrun, hread⟩

/-! ## Formats -/

/-- An argument of `printf`. -/
inductive Arg where
  | num (x : BitVec 64)
  | str (s : Option (List Char))

/-- `va_arg` for a number. -/
def numArg : List Arg → Option (BitVec 64 × List Arg)
  | .num x :: ap => some (x, ap)
  | _ => none

/-- `va_arg` for a string. -/
def strArg : List Arg → Option (Option (List Char) × List Arg)
  | .str s :: ap => some (s, ap)
  | _ => none

/-- `printptr`. -/
def printptr (digits : Nat → Char) (x : BitVec 64) : List Char :=
  '0' :: 'x' :: (List.range 16).map fun i => digits (x.toNat / 16 ^ (15 - i) % 16)

/-- The loop over the format: the characters that are printed. The user library keeps the `%` in `state`, the kernel
looks at the characters after it; both drop a `%` at the end. An argument that is missing or of the wrong kind gives
`none`. -/
def format (printint : BitVec 64 → Nat → Bool → Option (List Char)) (digits : Nat → Char) :
    List Char → List Arg → Option (List Char)
  | [], _ => some []
  | ['%'], _ => some []
  | '%' :: 'd' :: fmt, ap => do
    let (x, ap) ← numArg ap
    pure ((← printint ((x.setWidth 32).signExtend 64) 10 true) ++ (← format printint digits fmt ap))
  | '%' :: 'l' :: 'd' :: fmt, ap => do
    let (x, ap) ← numArg ap
    pure ((← printint x 10 true) ++ (← format printint digits fmt ap))
  | '%' :: 'l' :: 'l' :: 'd' :: fmt, ap => do
    let (x, ap) ← numArg ap
    pure ((← printint x 10 true) ++ (← format printint digits fmt ap))
  | '%' :: 'u' :: fmt, ap => do
    let (x, ap) ← numArg ap
    pure ((← printint ((x.setWidth 32).setWidth 64) 10 false) ++ (← format printint digits fmt ap))
  | '%' :: 'l' :: 'u' :: fmt, ap => do
    let (x, ap) ← numArg ap
    pure ((← printint x 10 false) ++ (← format printint digits fmt ap))
  | '%' :: 'l' :: 'l' :: 'u' :: fmt, ap => do
    let (x, ap) ← numArg ap
    pure ((← printint x 10 false) ++ (← format printint digits fmt ap))
  | '%' :: 'x' :: fmt, ap => do
    let (x, ap) ← numArg ap
    pure ((← printint ((x.setWidth 32).setWidth 64) 16 false) ++ (← format printint digits fmt ap))
  | '%' :: 'l' :: 'x' :: fmt, ap => do
    let (x, ap) ← numArg ap
    pure ((← printint x 16 false) ++ (← format printint digits fmt ap))
  | '%' :: 'l' :: 'l' :: 'x' :: fmt, ap => do
    let (x, ap) ← numArg ap
    pure ((← printint x 16 false) ++ (← format printint digits fmt ap))
  | '%' :: 'p' :: fmt, ap => do
    let (x, ap) ← numArg ap
    pure (printptr digits x ++ (← format printint digits fmt ap))
  | '%' :: 'c' :: fmt, ap => do
    let (x, ap) ← numArg ap
    pure (Char.ofNat (x.toNat % 256) :: (← format printint digits fmt ap))
  | '%' :: 's' :: fmt, ap => do
    let (s, ap) ← strArg ap
    pure (s.getD "(null)".toList ++ (← format printint digits fmt ap))
  | '%' :: '%' :: fmt, ap => do pure ('%' :: (← format printint digits fmt ap))
  | '%' :: c :: fmt, ap => do pure ('%' :: c :: (← format printint digits fmt ap))
  | c :: fmt, ap => do pure (c :: (← format printint digits fmt ap))

/-- `vprintf` of the user library. -/
def vprintf : List Char → List Arg → Option (List Char) := format printint digits

/-- `printf` of the kernel. -/
def Kernel.printf : List Char → List Arg → Option (List Char) := format Kernel.printint Kernel.digits

/-- The formats for 64-bit numbers. -/
inductive Long where
  | ld | lld | lu | llu | lx | llx
  deriving DecidableEq, Repr

def Long.fmt : Long → List Char
  | ld => "%ld".toList
  | lld => "%lld".toList
  | lu => "%lu".toList
  | llu => "%llu".toList
  | lx => "%lx".toList
  | llx => "%llx".toList

def Long.base : Long → Nat
  | ld | lld | lu | llu => 10
  | lx | llx => 16

def Long.signed : Long → Bool
  | ld | lld => true
  | lu | llu | lx | llx => false

/-- What `format` does with such a format. -/
theorem format_long {printint : BitVec 64 → Nat → Bool → Option (List Char)} {digits : Nat → Char} {d : List Char}
    {x : BitVec 64} (f : Long) (h : printint x f.base f.signed = some d) (fmt : List Char) (ap : List Arg) :
    format printint digits (f.fmt ++ fmt) (.num x :: ap) = (format printint digits fmt ap).map (d ++ ·) := by
  have hform : format printint digits (f.fmt ++ fmt) (.num x :: ap) =
      (printint x f.base f.signed).bind fun d => (format printint digits fmt ap).bind fun r => some (d ++ r) := by
    cases f <;> rfl
  rw [hform, h, Option.bind_some]
  cases format printint digits fmt ap <;> rfl

/-- For every 64-bit argument, in every place of a format: the digits of the user library read back as the argument if
and only if its absolute value is below `2 ^ 32`; those of the kernel always do. -/
theorem vprintf_long_iff (f : Long) (x : BitVec 64) : ∃ d dk : List Char,
    (∀ fmt ap, vprintf (f.fmt ++ fmt) (.num x :: ap) = (vprintf fmt ap).map (d ++ ·)) ∧
    (∀ fmt ap, Kernel.printf (f.fmt ++ fmt) (.num x :: ap) = (Kernel.printf fmt ap).map (dk ++ ·)) ∧
    (readBack f.base d = argVal f.signed x ↔ (argVal f.signed x).natAbs < 2 ^ 32) ∧
    readBack f.base dk = argVal f.signed x := by
  have hb : f.base = 10 ∨ f.base = 16 := by cases f <;> decide
  obtain ⟨lk, hdk, -, hk, hkval⟩ := Kernel.printint_spec x hb f.signed
  have hlow : ((if isNeg f.signed x then -x else x).setWidth 32).toNat = (argVal f.signed x).natAbs % 2 ^ 32 := by
    rw [BitVec.toNat_setWidth, toNat_natAbs]
  have hlt : (argVal f.signed x).natAbs % 2 ^ 32 < f.base ^ 10 := by
    have := Nat.mod_lt (argVal f.signed x).natAbs (Nat.two_pow_pos 32)
    rcases hb with h | h <;> rw [h] <;> omega
  have hone := Bool.toNat_le (isNeg f.signed x)
  obtain ⟨l, hl, -, hnum, hval⟩ := printDigits_spec digits_isTable (by omega) (by omega) hlt
    (show 9 + 1 + (isNeg f.signed x).toNat ≤ 20 by omega)
  refine ⟨_, _, format_long f (by rw [printint, hlow]; exact hl), format_long f hdk, ?_, (readBack_eq_iff hk).mpr hkval⟩
  rw [readBack_eq_iff hnum, hval]
  constructor
  · intro h
    rw [← h]
    exact Nat.mod_lt _ (Nat.two_pow_pos 32)
  · intro h
    exact Nat.mod_eq_of_lt h

/-- `2 ^ 32` is printed as `0`, for instance by the `p` format of `memdump`. -/
theorem vprintf_lx_truncated : vprintf "%lx\n".toList [.num (2 ^ 32)] = some "0\n".toList ∧
    Kernel.printf "%lx\n".toList [.num (2 ^ 32)] = some "100000000\n".toList ∧ readBack 16 "0".toList ≠ 2 ^ 32 := by
  refine ⟨by decide +kernel, by decide +kernel, by decide +kernel⟩

end Xv6.Ulib
