import Mathlib.Data.Nat.Digits.Lemmas
import Mathlib.Tactic.IntervalCases

/-!
# Printf — the integer conversions of the user's `printf`

Functions that print return the characters written.  `none` is a write behind the end of `buf` or a
`va_arg` of another type than that of the argument; nothing is known about what follows then.
-/

namespace Xv6.Printf

def digits : List Char :=
  ['0', '1', '2', '3', '4', '5', '6', '7', '8', '9', 'A', 'B', 'C', 'D', 'E', 'F']

/-- `digits[d]` -/
def digit (d : Nat) : Char :=
  digits.getD d '\x00'

/-- `buf[i++] = c`, where `buf` has 16 elements. -/
def push (buf : List Char) (c : Char) : Option (List Char) :=
  if buf.length < 16 then some (buf ++ [c]) else none

def digitLoop (base : Nat) (hbase : 1 < base) (x : Nat) (buf : List Char) : Option (List Char) :=
  (push buf (digit (x % base))).bind fun buf =>
    if _h : x / base = 0 then some buf else digitLoop base hbase (x / base) buf
termination_by x
decreasing_by
  exact Nat.div_lt_self (Nat.pos_of_ne_zero fun hx => _h (by rw [hx, Nat.zero_div])) hbase

/-- `-xx` of the least `int` wraps. -/
def printint (xx : BitVec 32) (base : Nat) (hbase : 1 < base) (sgn : Bool) :
    Option (List Char) := do
  let neg := sgn && decide (xx.toInt < 0)
  let x := if neg then -xx else xx
  let buf ← digitLoop base hbase x.toNat []
  let buf ← if neg then push buf '-' else some buf
  return buf.reverse

/-- The loop of `printptr`, with `n` digits to go. -/
def printptrLoop : Nat → BitVec 64 → List Char
  | 0, _ => []
  | n + 1, x => digit (x >>> 60).toNat :: printptrLoop n (x <<< 4)

def printptr (x : BitVec 64) : List Char :=
  '0' :: 'x' :: printptrLoop 16 x

/-- An argument; `char` and `uint` are passed as `int`. -/
inductive Arg
  | int (v : BitVec 32)
  | uint64 (v : BitVec 64)
  | str (s : Option (List Char))

def vaInt : List Arg → Option (BitVec 32 × List Arg)
  | .int v :: ap => some (v, ap)
  | _ => none

def vaUint64 : List Arg → Option (BitVec 64 × List Arg)
  | .uint64 v :: ap => some (v, ap)
  | _ => none

def vaStr : List Arg → Option (Option (List Char) × List Arg)
  | .str s :: ap => some (s, ap)
  | _ => none

/-- The character after a `%`: what is written, and the arguments left. -/
def convert (c : Char) (ap : List Arg) : Option (List Char × List Arg) :=
  if c = 'd' then do
    let (v, ap) ← vaInt ap
    return (← printint v 10 (by decide) true, ap)
  else if c = 'l' then do
    -- The parameter of `printint` is an `int`: the upper half is dropped.
    let (v, ap) ← vaUint64 ap
    return (← printint (v.setWidth 32) 10 (by decide) false, ap)
  else if c = 'x' then do
    let (v, ap) ← vaInt ap
    return (← printint v 16 (by decide) false, ap)
  else if c = 'p' then do
    let (v, ap) ← vaUint64 ap
    return (printptr v, ap)
  else if c = 's' then do
    let (s, ap) ← vaStr ap
    return (s.getD ['(', 'n', 'u', 'l', 'l', ')'], ap)
  else if c = 'c' then do
    let (v, ap) ← vaInt ap
    return ([Char.ofNat (v.toNat % 256)], ap)
  else if c = '%' then
    return ([c], ap)
  else
    return (['%', c], ap)

/-- The loop of `vprintf`; `percent` says that `state` is `'%'`. -/
def vprintf (percent : Bool) : List Char → List Arg → Option (List Char)
  | [], _ => some []
  | c :: fmt, ap =>
    if percent then do
      let (out, ap) ← convert c ap
      (vprintf false fmt ap).map (out ++ ·)
    else if c = '%' then
      vprintf true fmt ap
    else
      (vprintf false fmt ap).map (c :: ·)

/-- The loop of `atoi`. -/
def atoiLoop (n : BitVec 32) : List Char → BitVec 32
  | [] => n
  | c :: s => if '0' ≤ c ∧ c ≤ '9' then atoiLoop (n * 10 + BitVec.ofNat 32 c.toNat - 48) s else n

def atoi (s : List Char) : BitVec 32 :=
  atoiLoop 0 s

/-! ## Numerals -/

/-- The digits of a number that is written with at least one, the least significant first. -/
def numeralDigits (base n : Nat) : List Nat :=
  if n = 0 then [0] else Nat.digits base n

def numeral (base n : Nat) : List Char :=
  ((numeralDigits base n).map digit).reverse

section Numerals

variable {base n : Nat} (hbase : 1 < base)

include hbase

theorem numeralDigits_step (n : Nat) :
    numeralDigits base n =
      if n / base = 0 then [n % base] else n % base :: numeralDigits base (n / base) := by
  rcases Nat.eq_zero_or_pos n with rfl | hn
  · simp [numeralDigits]
  · rw [numeralDigits, if_neg hn.ne', Nat.digits_def' hbase hn]
    by_cases h : n / base = 0
    · simp [h]
    · rw [if_neg h, numeralDigits, if_neg h]

theorem length_numeralDigits_le {k : Nat} (hk : 0 < k) (h : n < base ^ k) :
    (numeralDigits base n).length ≤ k := by
  unfold numeralDigits
  split
  · exact hk
  · exact (Nat.digits_length_le_iff hbase n).2 h

theorem lt_of_mem_numeralDigits {d : Nat} (h : d ∈ numeralDigits base n) : d < base := by
  unfold numeralDigits at h
  split at h
  · rw [List.mem_singleton.1 h]
    exact Nat.zero_lt_of_lt hbase
  · exact Nat.digits_lt_base hbase h

theorem digitLoop_eq {buf : List Char} (h : buf.length + (numeralDigits base n).length ≤ 16) :
    digitLoop base hbase n buf = some (buf ++ (numeralDigits base n).map digit) := by
  induction n using Nat.strong_induction_on generalizing buf with
  | _ n ih =>
  rw [numeralDigits_step hbase n] at h ⊢
  rw [digitLoop]
  by_cases hq : n / base = 0
  · rw [if_pos hq] at h ⊢
    have hlt : buf.length < 16 := h
    simp [push, hlt, hq]
  · rw [if_neg hq] at h ⊢
    have hlt : buf.length < 16 := by
      rw [List.length_cons] at h
      omega
    have hpos : 0 < n := Nat.pos_of_ne_zero fun hn => hq (by rw [hn, Nat.zero_div])
    have hrest : (buf ++ [digit (n % base)]).length +
      (numeralDigits base (n / base)).length ≤ 16 := by
      simp only [List.length_append, List.length_cons, List.length_nil] at h ⊢
      omega
    simp [push, hlt, hq, ih _ (Nat.div_lt_self hpos hbase) hrest]

end Numerals

theorem ofDigits_numeralDigits (base n : Nat) : Nat.ofDigits base (numeralDigits base n) = n := by
  unfold numeralDigits
  split
  · next h => simp [h]
  · exact Nat.ofDigits_digits base n

/-- The digit that a character stands for. -/
def digitValue (c : Char) : Nat :=
  digits.idxOf c

theorem digitValue_digit : ∀ d < 16, digitValue (digit d) = d := by
  decide

theorem numeral_inj {base m n : Nat} (hbase : 1 < base) (hle : base ≤ 16)
    (h : numeral base m = numeral base n) : m = n := by
  have hback : ∀ k, ((numeral base k).reverse.map digitValue) = numeralDigits base k := by
    intro k
    rw [numeral, List.reverse_reverse, List.map_map]
    have hid : ∀ d ∈ numeralDigits base k, (digitValue ∘ digit) d = id d := fun d hd =>
      digitValue_digit d (Nat.lt_of_lt_of_le (lt_of_mem_numeralDigits hbase hd) hle)
    rw [List.map_congr_left hid, List.map_id]
  rw [← ofDigits_numeralDigits base m, ← ofDigits_numeralDigits base n, ← hback m, h, hback n]

/-! ## What is printed -/

theorem printint_eq {xx : BitVec 32} {base : Nat} (hbase : 1 < base) (h32 : 2 ^ 32 ≤ base ^ 15)
    {sgn : Bool} :
    printint xx base hbase sgn =
      some (if sgn = true ∧ xx.toInt < 0 then '-' :: numeral base (-xx).toNat
      else numeral base xx.toNat) := by
  have hlen : ∀ x : BitVec 32, (numeralDigits base x.toNat).length ≤ 15 := fun x =>
    length_numeralDigits_le hbase (by decide) (Nat.lt_of_lt_of_le x.isLt h32)
  have hloop : ∀ x : BitVec 32, digitLoop base hbase x.toNat [] =
      some ((numeralDigits base x.toNat).map digit) :=
    fun x => digitLoop_eq hbase (by have := hlen x; simp only [List.length_nil]; omega)
  by_cases hneg : sgn = true ∧ xx.toInt < 0
  · have hpush : push ((numeralDigits base (-xx).toNat).map digit) '-' =
        some ((numeralDigits base (-xx).toNat).map digit ++ ['-']) :=
      if_pos (by rw [List.length_map]; exact Nat.lt_succ_of_le (hlen (-xx)))
    simp only [printint, hneg.1, hneg.2, decide_true, Bool.and_self, if_true, and_self, hloop,
      Option.bind_eq_bind, Option.bind_some, hpush, List.reverse_append, numeral]
    rfl
  · have hfalse : (sgn && decide (xx.toInt < 0)) = false := by
      simpa using fun hs => not_lt.1 fun hx => hneg ⟨hs, hx⟩
    simp [printint, hfalse, hneg, hloop, numeral]

theorem printptrLoop_eq (n : Nat) (x : BitVec 64) :
    printptrLoop n x = (List.range n).map fun i => digit ((x <<< (4 * i)) >>> 60).toNat := by
  induction n generalizing x with
  | zero => rfl
  | succ n ih =>
    rw [printptrLoop, ih, List.range_succ_eq_map, List.map_cons, List.map_map]
    simp only [Nat.mul_zero, BitVec.shiftLeft_zero, Function.comp_def, ← BitVec.shiftLeft_add]
    simp only [Nat.mul_succ, Nat.add_comm]

theorem shifted_digit (x : BitVec 64) {i : Nat} (hi : i < 16) :
    ((x <<< (4 * i)) >>> 60).toNat = x.toNat / 16 ^ (15 - i) % 16 := by
  rw [BitVec.toNat_ushiftRight, BitVec.toNat_shiftLeft, Nat.shiftLeft_eq, Nat.shiftRight_eq_div_pow]
  have hx := x.isLt
  interval_cases i <;> omega

/-- The conversions of integers, with the argument. -/
inductive Conversion
  | d (v : BitVec 32)
  | x (v : BitVec 32)
  | l (v : BitVec 64)
  | p (v : BitVec 64)

namespace Conversion

def letter : Conversion → Char
  | d _ => 'd'
  | x _ => 'x'
  | l _ => 'l'
  | p _ => 'p'

def arg : Conversion → Arg
  | d v | x v => .int v
  | l v | p v => .uint64 v

/-- What is to be printed. -/
def canonical : Conversion → List Char
  | d v => if v.toInt < 0 then '-' :: numeral 10 v.toInt.natAbs else numeral 10 v.toInt.natAbs
  | x v => numeral 16 v.toNat
  | l v => numeral 10 v.toNat
  | p v => '0' :: 'x' :: (List.range 16).map fun i => digit (v.toNat / 16 ^ (15 - i) % 16)

/-- What is printed. -/
def printed : Conversion → List Char
  | l v => numeral 10 (v.toNat % 2 ^ 32)
  | k => k.canonical

/-- The value is one of an `int` where the code takes it for one. -/
def Narrow : Conversion → Prop
  | l v => v.toNat < 2 ^ 32
  | _ => True

end Conversion

open Conversion

theorem natAbs_toInt (v : BitVec 32) :
    v.toInt.natAbs = if v.toInt < 0 then (-v).toNat else v.toNat := by
  have hv := v.isLt
  have hneg : (-v).toNat = (2 ^ 32 - v.toNat) % 2 ^ 32 := BitVec.toNat_neg v
  have hint : v.toInt = if 2 * v.toNat < 2 ^ 32 then (v.toNat : Int)
    else v.toNat - (2 ^ 32 : Nat) :=
    BitVec.toInt_eq_toNat_cond v
  split at hint <;> split <;> omega

theorem convert_eq (k : Conversion) (ap : List Arg) :
    convert k.letter (k.arg :: ap) = some (k.printed, ap) := by
  cases k with
  | d v =>
    have hcanonical : canonical (d v) =
        if true = true ∧ v.toInt < 0 then '-' :: numeral 10 (-v).toNat else numeral 10 v.toNat := by
      rw [canonical, natAbs_toInt]
      by_cases h : v.toInt < 0 <;> simp [h]
    simp [convert, letter, arg, vaInt, printed, hcanonical, printint_eq]
  | x v => simp [convert, letter, arg, vaInt, printed, canonical, printint_eq]
  | l v => simp [convert, letter, arg, vaUint64, printed, printint_eq]
  | p v =>
    have hdigits : printptrLoop 16 v = (List.range 16).map fun i =>
      digit (v.toNat / 16 ^ (15 - i) % 16) := by
      rw [printptrLoop_eq]
      refine List.map_congr_left fun i hi => ?_
      rw [shifted_digit v (List.mem_range.1 hi)]
    simp [convert, letter, arg, vaUint64, printed, canonical, printptr, hdigits]

theorem vprintf_conversion (k : Conversion) (fmt : List Char) (ap : List Arg) :
    vprintf false ('%' :: k.letter :: fmt) (k.arg :: ap) =
      (vprintf false fmt ap).map (k.printed ++ ·) := by
  simp [vprintf, convert_eq]

theorem printed_eq_canonical (k : Conversion) : k.printed = k.canonical ↔ k.Narrow := by
  cases k with
  | l v =>
    constructor
    · intro h
      rw [Narrow, ← numeral_inj (by decide) (by decide) h]
      exact Nat.mod_lt _ (by decide)
    · intro h
      rw [printed, canonical, Nat.mod_eq_of_lt h]
  | d | x | p => exact iff_of_true rfl trivial

/-! ## Reading back -/

theorem digit_toNat : ∀ d < 10, '0' ≤ digit d ∧ digit d ≤ '9' ∧ (digit d).toNat = 48 + d := by
  decide

theorem atoiLoop_numeral {ds : List Nat} (hds : ∀ d ∈ ds, d < 10) (s : List Char) :
    atoiLoop 0 ((ds.map digit).reverse ++ s) =
      atoiLoop (BitVec.ofNat 32 (Nat.ofDigits 10 ds)) s := by
  -- The last digit of the numeral is the first of `ds`.
  induction ds generalizing s with
  | nil => rfl
  | cons d ds ih =>
    obtain ⟨hd, hds⟩ := List.forall_mem_cons.1 hds
    obtain ⟨hge, hle, hval⟩ := digit_toNat d hd
    have hstep : ∀ v, BitVec.ofNat 32 v * 10 + BitVec.ofNat 32 (48 + d) - 48 =
        BitVec.ofNat 32 (d + 10 * v) := by
      intro v
      apply BitVec.eq_of_toNat_eq
      simp
      omega
    rw [List.map_cons, List.reverse_cons, List.append_assoc, ih hds,
      List.singleton_append, atoiLoop,
      if_pos ⟨hge, hle⟩, hval, hstep, Nat.ofDigits_cons]

theorem atoi_numeral (n : Nat) : atoi (numeral 10 n) = BitVec.ofNat 32 n := by
  have h := atoiLoop_numeral (fun d hd => lt_of_mem_numeralDigits (n := n) (by decide) hd) []
  rw [List.append_nil, ofDigits_numeralDigits] at h
  exact h

/-- Every conversion prints its value, but `%l` the lower half of it only; `atoi` reads a
non-negative `%d` back. -/
theorem vprintf_renders (k : Conversion) :
    ∃ out, (∀ fmt ap, vprintf false ('%' :: k.letter :: fmt) (k.arg :: ap) =
        (vprintf false fmt ap).map (out ++ ·)) ∧
      (out = k.canonical ↔ k.Narrow) ∧
      ∀ v, k = .d v → 0 ≤ v.toInt → atoi out = v := by
  refine ⟨k.printed, vprintf_conversion k, printed_eq_canonical k, ?_⟩
  rintro v rfl hv
  rw [printed, canonical, if_neg (not_lt.2 hv), natAbs_toInt, if_neg (not_lt.2 hv), atoi_numeral,
    BitVec.ofNat_toNat, BitVec.setWidth_eq]
  exact fun w h => Conversion.noConfusion h

theorem vprintf_renders_least :
    ∃ out, vprintf false ['%', 'd', '!'] [.int 2147483648#32] = some (out ++ ['!']) ∧
      out = (d 2147483648#32).canonical := by
  obtain ⟨out, hprints, hright, -⟩ := vprintf_renders (.d 2147483648#32)
  exact ⟨out, hprints ['!'] [], hright.2 trivial⟩

/-- `2 ^ 32` is printed as 0. -/
theorem vprintf_l_truncates :
    vprintf false ['%', 'l'] [.uint64 4294967296#64] = some ['0'] ∧
      (l 4294967296#64).canonical = ['4', '2', '9', '4', '9', '6', '7', '2', '9', '6'] := by
  refine ⟨vprintf_conversion (l 4294967296#64) [] [], ?_⟩
  simp [canonical, numeral, numeralDigits, digit, digits]

end Xv6.Printf
