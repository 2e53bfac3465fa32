import Ab32Vg1.Kernel.FormatBuffer
import Mathlib.Data.List.DropRight
import Mathlib.Data.Nat.Digits.Lemmas

/-! What the integer conversions of `rt_vsnprintf` print, and the number that is read back from it. -/

namespace Ab32Vg1.Kernel

open ProofKit

/-! ### Reading a number back -/

def isPadding (c : Char) : Bool := c = ' ' || c = '+' || c = '-'

/-- The digits of a text, without what stands before and behind them. -/
def numeral (text : List Char) : List Char := (text.dropWhile isPadding).rdropWhile (· = ' ')

def digitValue (c : Char) : Option Nat := small_digits.idxOf? c <|> large_digits.idxOf? c

def readDigit (base n : Nat) (c : Char) : Option Nat := do
  let d ← digitValue c
  if d < base then some (n * base + d) else none

/-- The number that the digits of a text stand for. -/
def readBack (base : Nat) (text : List Char) : Option Nat :=
  match numeral text with
  | [] => none
  | digits => digits.foldlM (readDigit base) 0

def conversionBase (conversion : Char) : Nat :=
  match conversion with
  | 'o' => 8
  | 'x' => 16
  | 'X' => 16
  | _ => 10

/-- The text of a conversion gives the value back. -/
def RoundTrip (conversion : Char) (text : List Char) (v : BitVec 32) : Prop :=
  ∃ n, readBack (conversionBase conversion) text = some n ∧
    if conversion = 'd' ∨ conversion = 'i' then (if '-' ∈ text then -(n : Int) else n) = v.toInt
    else n = v.toNat

/-! ### Digits -/

section

variable {type : FormatFlags} {base n room d : Nat}

/-- The character of a digit. -/
def digitChar (type : FormatFlags) (d : Nat) : Char := (digitsOf type).getD d NUL

theorem digitValue_digitChar (type : FormatFlags) (h : d < 16) : digitValue (digitChar type d) = some d := by
  have hall : ∀ large : Bool, ∀ d ∈ List.range 16,
      digitValue ((if large then large_digits else small_digits).getD d NUL) = some d := by
    decide
  exact hall type.LARGE d (List.mem_range.mpr h)

theorem digitChar_not_padding (type : FormatFlags) (h : d < 16) : isPadding (digitChar type d) = false := by
  have hall : ∀ large : Bool, ∀ d ∈ List.range 16,
      isPadding ((if large then large_digits else small_digits).getD d NUL) = false := by
    decide
  exact hall type.LARGE d (List.mem_range.mpr h)

theorem digitChar_zero : digitChar type 0 = '0' := by
  unfold digitChar digitsOf
  split <;> decide

/-- The base that `divide` divides by. -/
def radix (base : Nat) : Nat := if base = 10 then 10 else 16

theorem radix_le : radix base ≤ 16 := by
  unfold radix
  split <;> omega

theorem one_lt_radix (base : Nat) : 1 < radix base := by
  unfold radix
  split <;> omega

theorem divide_eq : divide n base = (n % radix base, n / radix base) := by
  unfold divide radix
  split <;> rfl

/-- The digits of a number that `tmp` has room for. -/
theorem tmpDigits_eq (h : n < radix base ^ room) :
    tmpDigits type base room n = some ((Nat.digits (radix base) n).map (digitChar type)) := by
  induction room generalizing n with
  | zero =>
    obtain rfl : n = 0 := by
      rw [pow_zero] at h
      omega
    rw [tmpDigits, Nat.digits_zero, List.map_nil]
  | succ room ih =>
    cases n with
    | zero => rw [tmpDigits, Nat.digits_zero, List.map_nil]
    | succ n =>
      have hdiv : (n + 1) / radix base < radix base ^ room := by
        rw [Nat.div_lt_iff_lt_mul (by have := one_lt_radix base; omega), ← pow_succ]
        exact h
      rw [tmpDigits, divide_eq]
      on_goal 2 => exact Nat.succ_ne_zero n
      dsimp only
      rw [ih hdiv, Nat.digits_def' (one_lt_radix base) (Nat.succ_pos n), List.map_cons]
      rfl

/-- The digits of a word, at least one. -/
def wordDigits (base : Nat) (m : BitVec 32) : List Nat :=
  if m = 0 then [0] else Nat.digits (radix base) m.toNat

theorem tmpOf_eq (m : BitVec 32) :
    tmpOf type base m = some ((wordDigits base m).map (digitChar type)) := by
  unfold tmpOf wordDigits
  split
  · rw [List.map_singleton, digitChar_zero]
  · refine tmpDigits_eq (Nat.lt_of_lt_of_le m.isLt ?_)
    calc 2 ^ 32 ≤ 10 ^ 16 := by norm_num
      _ ≤ radix base ^ 16 := Nat.pow_le_pow_left (by unfold radix; split <;> omega) 16

theorem wordDigits_lt (m : BitVec 32) : ∀ d ∈ wordDigits base m, d < radix base := by
  intro d hd
  unfold wordDigits at hd
  split at hd
  · rw [List.mem_singleton.mp hd]
    exact Nat.lt_of_succ_lt (one_lt_radix _)
  · exact Nat.digits_lt_base (one_lt_radix _) hd

theorem wordDigits_ne_nil (m : BitVec 32) : wordDigits base m ≠ [] := by
  unfold wordDigits
  split
  · simp
  · next hm =>
    rw [Ne, Nat.digits_eq_nil_iff_eq_zero]
    exact fun h => hm (BitVec.eq_of_toNat_eq h)

theorem ofDigits_wordDigits (base : Nat) (m : BitVec 32) : Nat.ofDigits (radix base) (wordDigits base m) = m.toNat := by
  unfold wordDigits
  split
  · next hm =>
    rw [hm]
    rfl
  · exact Nat.ofDigits_digits _ _

/-- Digits are read from the highest to the lowest. -/
theorem readDigits_reverse {ds : List Nat} (hds : ∀ d ∈ ds, d < 16) :
    (ds.map (digitChar type)).reverse.foldlM (readDigit base) 0 =
      if ∀ d ∈ ds, d < base then some (Nat.ofDigits base ds) else none := by
  induction ds with
  | nil => simp [Nat.ofDigits]
  | cons d ds ih =>
    rw [List.map_cons, List.reverse_cons, List.foldlM_append, ih fun e he => hds e (List.mem_cons_of_mem d he)]
    have hd := digitValue_digitChar type (hds d List.mem_cons_self)
    have hcons : (∀ e ∈ d :: ds, e < base) ↔ d < base ∧ ∀ e ∈ ds, e < base := List.forall_mem_cons
    by_cases hall : ∀ e ∈ ds, e < base
    · rw [if_pos hall]
      simp only [Option.bind_eq_bind, Option.bind_some, List.foldlM_cons, List.foldlM_nil, readDigit, hd]
      by_cases hlt : d < base
      · rw [if_pos hlt, if_pos (hcons.mpr ⟨hlt, hall⟩), Nat.ofDigits_cons]
        simp only [Option.bind_some, Option.pure_def, Option.some.injEq, Nat.cast_id]
        ring
      · rw [if_neg hlt, if_neg fun h => hlt (hcons.mp h).1]
        rfl
    · rw [if_neg hall, if_neg fun h => hall (hcons.mp h).2]
      rfl

/-- Zeros in front do not count. -/
theorem readDigits_zeros (hbase : 0 < base) (z : Nat) (cs : List Char) :
    (List.replicate z '0' ++ cs).foldlM (readDigit base) 0 = cs.foldlM (readDigit base) 0 := by
  induction z with
  | zero => rfl
  | succ z ih =>
    have hzero : readDigit base 0 '0' = some 0 := by
      have hval : digitValue '0' = some 0 := by decide
      simp [readDigit, hval, hbase]
    rw [List.replicate_succ, List.cons_append, List.foldlM_cons, hzero]
    exact ih

end

/-! ### The text of a number -/

/-- Padding and a sign, zeros, the digits, and padding. -/
structure NumberText (text : List Char) (sign : Option Char) (tmp : List Char) : Prop where
  parts : ∃ a b z t, text = List.replicate a ' ' ++ sign.toList ++ List.replicate b ' ' ++
    (List.replicate z '0' ++ tmp.reverse) ++ List.replicate t ' '

theorem putNumber_text (tmp : List Char) (sign : Option Char) (s : Int) {precision : Int}
    (type : FormatFlags) (hp : precision ≠ 0) :
    NumberText (putNumber append tmp sign s precision type []) sign tmp := by
  unfold putNumber
  cases hleft : type.LEFT with
  | true =>
    simp only [hp, fill_append, foldl_append, ne_eq, not_false_eq_true, if_true, reduceCtorEq, and_false,
      if_false]
    cases sign with
    | none => exact ⟨0, 0, _, _, by simp; rfl⟩
    | some sign => exact ⟨0, 0, _, _, by simp [append]; rfl⟩
  | false =>
    cases hzero : type.ZEROPAD with
    | true =>
      simp only [hp, fill_append, foldl_append, ne_eq, not_false_eq_true, if_true, reduceCtorEq, false_and,
        if_false]
      cases sign with
      | none => exact ⟨0, 0, _, _, by simp; rfl⟩
      | some sign => exact ⟨0, 0, _, _, by simp [append]; rfl⟩
    | false =>
      simp only [hp, fill_append, foldl_append, ne_eq, not_false_eq_true, if_true, and_self,
        Bool.false_eq_true, if_false]
      cases sign with
      | none => exact ⟨_, _, _, _, by simp; rfl⟩
      | some sign => exact ⟨_, _, _, _, by simp [append]; rfl⟩

theorem numeral_middle (before : List Char) {digits : List Char} (hbefore : ∀ c ∈ before, isPadding c = true)
    (hne : digits ≠ []) (hdigits : ∀ c ∈ digits, isPadding c = false) (t : Nat) :
    numeral (before ++ digits ++ List.replicate t ' ') = digits := by
  have hfirst : ∀ l : List Char, (digits ++ l).dropWhile isPadding = digits ++ l := by
    intro l
    cases digits with
    | nil => exact absurd rfl hne
    | cons c cs =>
      rw [List.cons_append, List.dropWhile_cons_of_neg]
      rw [hdigits c List.mem_cons_self]
      decide
  have hlast : digits.reverse.dropWhile (· = ' ') = digits.reverse := by
    cases hrev : digits.reverse with
    | nil => rfl
    | cons c cs =>
      have hc := hdigits c (List.mem_reverse.mp (by rw [hrev]; exact List.mem_cons_self))
      rw [List.dropWhile_cons_of_neg]
      intro hspace
      rw [of_decide_eq_true hspace] at hc
      exact absurd hc (by decide)
  unfold numeral
  rw [List.append_assoc, List.dropWhile_append_of_pos hbefore, hfirst, List.rdropWhile,
    List.reverse_append, List.dropWhile_append_of_pos, hlast, List.reverse_reverse]
  intro c hc
  rw [List.reverse_replicate] at hc
  rw [List.eq_of_mem_replicate hc]
  decide

section

variable {type : FormatFlags} {sign : Option Char} {text : List Char} {ds : List Nat}

/-- What is read back from a number that was printed. -/
theorem NumberText.readBack (h : NumberText text sign (ds.map (digitChar type)))
    (hsign : ∀ c ∈ sign.toList, isPadding c = true) (hne : ds ≠ []) (hds : ∀ d ∈ ds, d < 16) (base : Nat)
    (hbase : 0 < base) : readBack base text =
      if ∀ d ∈ ds, d < base then some (Nat.ofDigits base ds) else none := by
  obtain ⟨a, b, z, t, rfl⟩ := h.parts
  let digits := List.replicate z '0' ++ (ds.map (digitChar type)).reverse
  have hdigits : ∀ c ∈ digits, isPadding c = false := by
    intro c hc
    rcases List.mem_append.mp hc with hc | hc
    · rw [List.eq_of_mem_replicate hc]
      decide
    · obtain ⟨d, hd, rfl⟩ := List.mem_map.mp (List.mem_reverse.mp hc)
      exact digitChar_not_padding type (hds d hd)
  have hdigits_ne : digits ≠ [] := by simp [digits, hne]
  have hspace : ∀ n, ∀ c ∈ List.replicate n ' ', isPadding c = true := by
    intro n c hc
    rw [List.eq_of_mem_replicate hc]
    decide
  have hnumeral := numeral_middle (List.replicate a ' ' ++ sign.toList ++ List.replicate b ' ')
    (fun c hc => by
      rcases List.mem_append.mp hc with hc | hc
      · rcases List.mem_append.mp hc with hc | hc
        · exact hspace a c hc
        · exact hsign c hc
      · exact hspace b c hc) hdigits_ne hdigits t
  unfold Kernel.readBack
  rw [hnumeral]
  cases hd : digits with
  | nil => exact absurd hd hdigits_ne
  | cons c cs =>
    dsimp only
    rw [← hd, readDigits_zeros hbase, readDigits_reverse hds]

/-- The sign is that of the number. -/
theorem NumberText.minus (h : NumberText text sign (ds.map (digitChar type))) (hds : ∀ d ∈ ds, d < 16) :
    '-' ∈ text ↔ sign = some '-' := by
  obtain ⟨a, b, z, t, rfl⟩ := h.parts
  have hdigit : '-' ∉ (ds.map (digitChar type)).reverse := by
    intro hc
    obtain ⟨d, hd, heq⟩ := List.mem_map.mp (List.mem_reverse.mp hc)
    have := digitChar_not_padding type (hds d hd)
    rw [heq] at this
    exact absurd this (by decide)
  simp only [List.mem_append, List.mem_replicate, hdigit, Option.mem_toList, Option.mem_def]
  simp

end

/-! ### The sign -/

section

variable {type : FormatFlags} {num : BitVec 32}

theorem getSign_padding : ∀ c ∈ (getSign type num).1.toList, isPadding c = true := by
  unfold getSign
  split
  · split
    · simp [isPadding]
    · split
      · simp [isPadding]
      · split <;> simp [isPadding]
  · simp

theorem getSign_unsigned (h : type.SIGN = false) : getSign type num = (none, num) := by
  rw [getSign, h]
  rfl

/-- The sign and the number printed are those of the value, also where it has no positive counterpart. -/
theorem getSign_signed (num : BitVec 32) (h : type.SIGN = true) : (if (getSign type num).1 = some '-' then
    -((getSign type num).2.toNat : Int) else (getSign type num).2.toNat) = num.toInt := by
  have hlt := num.isLt
  have hint := num.toInt_eq_toNat_cond
  unfold getSign
  rw [if_pos h]
  by_cases hneg : num.slt 0 = true
  · have hneg' : num.toInt < 0 := by
      have := BitVec.slt_iff_toInt_lt.mp hneg
      simpa using this
    rw [if_pos hneg, if_pos rfl, BitVec.toNat_neg]
    split at hint <;> omega
  · have hneg' : 0 ≤ num.toInt := by
      have := fun h => hneg (BitVec.slt_iff_toInt_lt.mpr h)
      simpa using this
    have hplain : (num.toNat : Int) = num.toInt := by
      split at hint <;> omega
    rw [if_neg hneg]
    split
    · exact hplain
    · split <;> exact hplain

end

/-! ### Conversions -/

theorem print_number_text (num : BitVec 32) (base : Nat) (s : Int) {precision : Int} (type : FormatFlags)
    (hp : precision ≠ 0) : ∃ text type', print_number append num base s precision type [] = some text ∧
      NumberText text (getSign type num).1
        ((wordDigits base (getSign type num).2).map (digitChar type')) := by
  have hsame : getSign (if type.LEFT then { type with ZEROPAD := false } else type) num =
      getSign type num := by
    split <;> rfl
  unfold print_number
  dsimp only
  rw [hsame, tmpOf_eq, Option.map_some]
  exact ⟨_, _, rfl, putNumber_text _ _ s _ hp⟩

theorem readFlags_SIGN {fmt : List Char} {flags : FormatFlags} :
    (readFlags fmt flags).1.SIGN = flags.SIGN := by
  fun_induction readFlags fmt flags with
  | case6 => rfl
  | _ _ _ ih => exact ih

theorem readDirective_unsigned {fmt rest : List Char} {args args' : List (BitVec 32)} {d : Directive}
    (h : readDirective fmt args = some (d, rest, args')) : d.flags.SIGN = false := by
  obtain ⟨⟨field_width, fmt1, args1⟩, -, h⟩ := Option.bind_eq_some_iff.mp h
  obtain ⟨⟨precision, fmt2, args2⟩, -, h⟩ := Option.bind_eq_some_iff.mp h
  cases h
  show (leftWidth _ field_width (readFlags fmt {}).1).2.SIGN = false
  unfold leftWidth
  split <;> exact readFlags_SIGN

/-- The base and the flags of an integer conversion. -/
def numberFlags (conversion : Char) (flags : FormatFlags) : Nat × FormatFlags :=
  match conversion with
  | 'o' => (8, flags)
  | 'X' => (16, { flags with LARGE := true })
  | 'x' => (16, flags)
  | 'u' => (10, flags)
  | _ => (10, { flags with SIGN := true })

section

variable {strings : Strings} {fmt : List Char} {args args' : List (BitVec 32)} {d : Directive}
  {conversion : Char} {v : BitVec 32}

/-- The text of a format that is an integer conversion. -/
theorem formatText_number (hread : readDirective fmt args = some (d, [conversion], v :: args'))
    (hconv : conversion ∈ ['d', 'i', 'u', 'x', 'X', 'o']) (hq : d.qualifier ≠ some 'h') :
    formatText strings ('%' :: fmt) args =
      print_number append v (numberFlags conversion d.flags).1 d.field_width d.precision
        (numberFlags conversion d.flags).2 [] := by
  have hconvert : convert append strings d conversion (v :: args') [] =
      (print_number append v (numberFlags conversion d.flags).1 d.field_width d.precision
        (numberFlags conversion d.flags).2 []).map fun o => (o, args') := by
    have hword : ∀ flags, convertWord { d with flags := flags } v = v := fun flags => if_neg hq
    simp only [List.mem_cons, List.not_mem_nil, or_false] at hconv
    rcases hconv with rfl | rfl | rfl | rfl | rfl | rfl <;>
      simp only [convert, va_arg, convertNumber, hword, numberFlags, Option.bind_eq_bind,
        Option.bind_some, Option.pure_def] <;>
      exact (Option.map_eq_bind ..).symm
  rw [formatText, formatLoop, if_neg (by decide), hread]
  dsimp only
  rw [hconvert, Option.bind_map]
  simp [formatLoop, Function.comp_def]

/-- Digits to the base 16 are octal digits of the same number when there is but one of them. -/
theorem octal_reads : ((∀ e ∈ wordDigits 8 v, e < 8) ∧ Nat.ofDigits 8 (wordDigits 8 v) = v.toNat) ↔
    v.toNat < 8 := by
  unfold wordDigits
  by_cases hv : v = 0
  · subst hv
    simp
  rw [if_neg hv]
  have hpos : 0 < v.toNat := Nat.pos_of_ne_zero fun h => hv (BitVec.eq_of_toNat_eq h)
  have hdigits : Nat.digits (radix 8) v.toNat = v.toNat % 16 :: Nat.digits 16 (v.toNat / 16) :=
    Nat.digits_def' (by decide) hpos
  rw [hdigits, Nat.ofDigits_cons]
  constructor
  · rintro ⟨hall, heq⟩
    have hlow : v.toNat % 16 < 8 := hall _ List.mem_cons_self
    by_contra hge
    have hle : Nat.ofDigits 8 (Nat.digits 16 (v.toNat / 16)) ≤ v.toNat / 16 := by
      calc Nat.ofDigits 8 (Nat.digits 16 (v.toNat / 16))
          ≤ Nat.ofDigits 16 (Nat.digits 16 (v.toNat / 16)) := Nat.ofDigits_monotone _ (by decide)
        _ = v.toNat / 16 := Nat.ofDigits_digits _ _
    omega
  · intro hlt
    have hdiv : v.toNat / 16 = 0 := by omega
    have hmod : v.toNat % 16 = v.toNat := Nat.mod_eq_of_lt (by omega)
    rw [hdiv, hmod, Nat.digits_zero, Nat.ofDigits_nil]
    exact ⟨List.forall_mem_singleton.mpr hlt, by simp⟩

/-- Every integer conversion without the qualifier `h` and with a precision other than 0 gives the value
back, but the octal one of a value with more than one octal digit. -/
theorem conversion_round_trip (hread : readDirective fmt args = some (d, [conversion], v :: args'))
    (hconv : conversion ∈ ['d', 'i', 'u', 'x', 'X', 'o']) (hq : d.qualifier ≠ some 'h')
    (hp : d.precision ≠ 0) :
    (∃ text, formatText strings ('%' :: fmt) args = some text ∧ RoundTrip conversion text v) ↔
      (conversion = 'o' → v.toNat < 8) := by
  let flags := (numberFlags conversion d.flags).2
  obtain ⟨text, type', htext, hnumber⟩ := print_number_text v (numberFlags conversion d.flags).1
    d.field_width flags hp
  have hsome : (∃ text, formatText strings ('%' :: fmt) args = some text ∧ RoundTrip conversion text v) ↔
      RoundTrip conversion text v := by
    rw [formatText_number hread hconv hq, htext]
    simp
  have hsign := readDirective_unsigned hread
  let m := (getSign flags v).2
  have hsmall : ∀ {base}, ∀ e ∈ wordDigits base m, e < 16 := fun e he =>
    Nat.lt_of_lt_of_le (wordDigits_lt m e he) radix_le
  have hback := fun base => hnumber.readBack getSign_padding (wordDigits_ne_nil m) hsmall base
  -- the base that the digits are made with is the one that they are read with
  have hsame : ∀ base, radix base = base → (numberFlags conversion d.flags).1 = base →
      readBack base text = some m.toNat := by
    intro base hradix hbase
    have hpos : 0 < base := by
      rw [← hradix]
      exact Nat.lt_of_succ_lt (one_lt_radix _)
    rw [hback _ hpos, hbase, if_pos]
    · rw [← ofDigits_wordDigits base, hradix]
    · intro e he
      have := wordDigits_lt m e he
      rwa [hradix] at this
  rw [hsome]
  simp only [List.mem_cons, List.not_mem_nil, or_false] at hconv
  have hunsigned : flags.SIGN = false → m = v := fun h => by
    rw [show m = (getSign flags v).2 from rfl, getSign_unsigned h]
  have hsigned : flags.SIGN = true → (if '-' ∈ text then -(m.toNat : Int) else m.toNat) = v.toInt := by
    intro h
    have := getSign_signed v h
    simp only [hnumber.minus hsmall]
    exact this
  rcases hconv with rfl | rfl | rfl | rfl | rfl | rfl
  · exact ⟨fun _ h => absurd h (by decide), fun _ => ⟨_, hsame 10 rfl rfl, hsigned rfl⟩⟩
  · exact ⟨fun _ h => absurd h (by decide), fun _ => ⟨_, hsame 10 rfl rfl, hsigned rfl⟩⟩
  · exact ⟨fun _ h => absurd h (by decide),
      fun _ => ⟨_, hsame 10 rfl rfl, congrArg BitVec.toNat (hunsigned hsign)⟩⟩
  · exact ⟨fun _ h => absurd h (by decide),
      fun _ => ⟨_, hsame 16 rfl rfl, congrArg BitVec.toNat (hunsigned hsign)⟩⟩
  · exact ⟨fun _ h => absurd h (by decide),
      fun _ => ⟨_, hsame 16 rfl rfl, congrArg BitVec.toNat (hunsigned hsign)⟩⟩
  · have hm : m = v := hunsigned hsign
    have hoctal : readBack 8 text = if ∀ e ∈ wordDigits 8 m, e < 8 then
        some (Nat.ofDigits 8 (wordDigits 8 m)) else none := hback _ (by decide)
    rw [hm] at hoctal
    constructor
    · rintro ⟨n, hn, heq⟩ -
      rw [show conversionBase 'o' = 8 from rfl, hoctal] at hn
      obtain ⟨hall, hn⟩ := Option.ite_none_right_eq_some.mp hn
      obtain rfl := Option.some.inj hn
      exact octal_reads.mp ⟨hall, heq⟩
    · intro h
      obtain ⟨hall, heq⟩ := octal_reads.mpr (h rfl)
      exact ⟨_, by rw [show conversionBase 'o' = 8 from rfl, hoctal, if_pos hall], heq⟩

end

theorem conversion_round_trip_min : ∃ text,
    formatText (fun _ => none) ('%' :: "+016.12d".toList) [0x80000000] = some text ∧
      RoundTrip 'd' text 0x80000000 :=
  have hread : readDirective "+016.12d".toList [0x80000000] =
      some (⟨{ ZEROPAD := true, PLUS := true }, 16, 12, none⟩, ['d'], [0x80000000]) := by decide +kernel
  (conversion_round_trip hread (by decide) (by decide) (by decide)).mpr (by decide)

theorem conversion_round_trip_fails : ¬∀ strings fmt args d conversion v args',
    readDirective fmt args = some (d, [conversion], v :: args') →
      conversion ∈ ['d', 'i', 'u', 'x', 'X', 'o'] → d.qualifier ≠ some 'h' → d.precision ≠ 0 →
        ∃ text, formatText strings ('%' :: fmt) args = some text ∧ RoundTrip conversion text v := by
  intro h
  obtain ⟨text, htext, n, hn, heq⟩ := h (fun _ => none) ['o'] [16] ⟨{}, -1, -1, none⟩ 'o' 16 []
    (by decide +kernel) (by decide) (by decide) (by decide)
  have hprinted : formatText (fun _ => none) ['%', 'o'] [16] = some ['1', '0'] := by decide +kernel
  obtain rfl := Option.some.inj (hprinted.symm.trans htext)
  have hread : readBack 8 ['1', '0'] = some 8 := by decide +kernel
  obtain rfl := Option.some.inj (hread.symm.trans hn)
  exact absurd heq (by decide)

end Ab32Vg1.Kernel
