import Ab32Vg1.Kernel.Def
import Ab32Vg1.ProofKit.CInt
import Ab32Vg1.ProofKit.Sink

/-! `rt_vsnprintf` with `RT_PRINTF_PRECISION`, without `RT_PRINTF_SPECIAL` and `RT_PRINTF_LONGLONG`.
Everything goes out through `if (str < end) *str = c; ++ str`, so the functions take what they put a
character into as a parameter. -/

namespace Ab32Vg1.Kernel

open ProofKit

/-- `int` -/
def int32 (v : Int) : Int := Width.dword.conv v

theorem int32_lt (v : Int) : int32 v < 2 ^ 31 := by
  show v.bmod 4294967296 < _
  rw [Int.bmod_def]
  split <;> omega

theorem int32_natCast {n : Nat} (h : n < 2 ^ 31) : int32 n = n := by
  show (n : Int).bmod 4294967296 = n
  rw [Int.bmod_def]
  split <;> omega

def NUL : Char := Char.ofNat 0

/-- The bits of the flags. -/
structure FormatFlags where
  ZEROPAD : Bool := false
  SIGN : Bool := false
  PLUS : Bool := false
  SPACE : Bool := false
  LEFT : Bool := false
  SPECIAL : Bool := false
  LARGE : Bool := false
  deriving DecidableEq, Repr

/-! ### Numbers -/

/-- The remainder, and what is left of the number. -/
def divide (n base : Nat) : Nat × Nat := if base = 10 then (n % 10, n / 10) else (n % 16, n / 16)

def small_digits : List Char := "0123456789abcdef".toList

def large_digits : List Char := "0123456789ABCDEF".toList

def digitsOf (type : FormatFlags) : List Char := if type.LARGE then large_digits else small_digits

/-- The digits that `print_number` puts into the rest of `tmp`, the lowest first. -/
def tmpDigits (type : FormatFlags) (base : Nat) : Nat → Nat → Option (List Char)
  | _, 0 => some []
  | 0, _ + 1 => none
  | room + 1, num =>
    let (res, num) := divide num base
    (tmpDigits type base room num).map ((digitsOf type).getD res NUL :: ·)

def tmpOf (type : FormatFlags) (base : Nat) (num : BitVec 32) : Option (List Char) :=
  if num = 0 then some ['0'] else tmpDigits type base 16 num.toNat

/-- The sign, and the number to print. -/
def getSign (type : FormatFlags) (num : BitVec 32) : Option Char × BitVec 32 :=
  if type.SIGN then
    if num.slt 0 then (some '-', -num)
    else if type.PLUS then (some '+', num)
    else if type.SPACE then (some ' ', num)
    else (none, num)
  else (none, num)

/-- A number after a loop that counts it down with `n-- > 0`. -/
def afterWhile (n : Int) : Int := if 0 < n then -1 else int32 (n - 1)

section

variable {σ : Type} (put : σ → Char → σ)

/-- `print_number` once the digits are in `tmp`. -/
def putNumber (tmp : List Char) (sign : Option Char) (s precision : Int) (type : FormatFlags) (o : σ) :
    σ :=
  let c := if type.ZEROPAD then '0' else ' '
  let i : Int := tmp.length
  let precision_bak := precision
  let precision := if i > precision then i else precision
  let size := int32 (s - precision)
  let (o, size) :=
    if type.ZEROPAD = false ∧ type.LEFT = false then
      let size := if sign.isSome ∧ size > 0 then size - 1 else size
      (fill put ' ' size.toNat o, afterWhile size)
    else (o, size)
  let (o, size) :=
    match sign with
    | some sign => (put o sign, int32 (size - 1))
    | none => (o, size)
  let (o, size) :=
    if type.LEFT = false then (fill put c size.toNat o, afterWhile size) else (o, size)
  let o := fill put '0' (precision - i).toNat o
  let o := if precision_bak ≠ 0 then tmp.reverse.foldl put o else o
  fill put ' ' size.toNat o

def print_number (num : BitVec 32) (base : Nat) (s precision : Int) (type : FormatFlags) (o : σ) :
    Option σ :=
  let type := if type.LEFT then { type with ZEROPAD := false } else type
  let (sign, num) := getSign type num
  (tmpOf type base num).map fun tmp => putNumber put tmp sign s precision type o

end

/-! ### Directives -/

structure Directive where
  flags : FormatFlags
  field_width : Int
  precision : Int
  qualifier : Option Char
  deriving DecidableEq, Repr

def readFlags : List Char → FormatFlags → FormatFlags × List Char
  | '-' :: fmt, flags => readFlags fmt { flags with LEFT := true }
  | '+' :: fmt, flags => readFlags fmt { flags with PLUS := true }
  | ' ' :: fmt, flags => readFlags fmt { flags with SPACE := true }
  | '#' :: fmt, flags => readFlags fmt { flags with SPECIAL := true }
  | '0' :: fmt, flags => readFlags fmt { flags with ZEROPAD := true }
  | fmt, flags => (flags, fmt)

def skip_atoi : List Char → Int → Int × List Char
  | [], i => (i, [])
  | c :: s, i => if c.isDigit then skip_atoi s (int32 (i * 10 + c.toNat - '0'.toNat)) else (i, c :: s)

/-- The next argument: all of them are words. -/
def va_arg : List (BitVec 32) → Option (BitVec 32 × List (BitVec 32))
  | [] => none
  | w :: args => some (w, args)

/-- A number in the format, or the next argument, or the number that stands for none. -/
def readCount (fmt : List Char) (args : List (BitVec 32)) :
    Option (Int × List Char × List (BitVec 32)) :=
  match fmt with
  | [] => some (-1, [], args)
  | c :: rest =>
    if c.isDigit then
      let (i, rest) := skip_atoi (c :: rest) 0
      some (i, rest, args)
    else if c = '*' then (va_arg args).map fun (w, args) => (w.toInt, rest, args)
    else some (-1, c :: rest, args)

/-- A negative width that is an argument stands for the flag. -/
def leftWidth (fmt : List Char) (field_width : Int) (flags : FormatFlags) : Int × FormatFlags :=
  if fmt.head? = some '*' ∧ field_width < 0 then (int32 (-field_width), { flags with LEFT := true })
  else (field_width, flags)

def readPrecision (fmt : List Char) (args : List (BitVec 32)) :
    Option (Int × List Char × List (BitVec 32)) :=
  match fmt with
  | '.' :: fmt => (readCount fmt args).map fun (precision, fmt, args) =>
    (if precision < 0 then 0 else precision, fmt, args)
  | fmt => some (-1, fmt, args)

def readQualifier : List Char → Option Char × List Char
  | 'h' :: fmt => (some 'h', fmt)
  | 'l' :: fmt => (some 'l', fmt)
  | fmt => (none, fmt)

/-- What stands between the `%` and the conversion. -/
def readDirective (fmt : List Char) (args : List (BitVec 32)) :
    Option (Directive × List Char × List (BitVec 32)) := do
  let (flags, fmt) := readFlags fmt {}
  let (field_width, fmt', args) ← readCount fmt args
  let (field_width, flags) := leftWidth fmt field_width flags
  let (precision, fmt, args) ← readPrecision fmt' args
  let (qualifier, fmt) := readQualifier fmt
  return (⟨flags, field_width, precision, qualifier⟩, fmt, args)

/-! ### Conversions -/

/-- The strings in memory, by their addresses. -/
abbrev Strings := BitVec 32 → Option (List Char)

def stringAt (strings : Strings) (s : BitVec 32) : Option (List Char) :=
  if s = 0 then some "(NULL)".toList else strings s

/-- The number of an integer conversion. -/
def convertWord (d : Directive) (w : BitVec 32) : BitVec 32 :=
  if d.qualifier = some 'h' then
    if d.flags.SIGN then (w.truncate 16).signExtend 32 else (w.truncate 16).zeroExtend 32
  else w

section

variable {σ : Type} (put : σ → Char → σ)

/-- `case 'c'` -/
def convertChar (d : Directive) (w : BitVec 32) (o : σ) : σ :=
  let field_width := d.field_width
  let (o, field_width) :=
    if d.flags.LEFT = false then
      let n := int32 (field_width - 1)
      (fill put ' ' n.toNat o, if 0 < n then 0 else n)
    else (o, field_width)
  let o := put o (Char.ofNat (w.toNat % 256))
  fill put ' ' (int32 (field_width - 1)).toNat o

/-- `case 's'` -/
def convertString (d : Directive) (s : List Char) (o : σ) : σ :=
  let field_width := d.field_width
  let len := int32 s.length
  let len := if d.precision > 0 ∧ len > d.precision then d.precision else len
  let (o, field_width) :=
    if d.flags.LEFT = false then
      (fill put ' ' (field_width - len).toNat o,
        int32 ((if len < field_width then len else field_width) - 1))
    else (o, field_width)
  let o := (s.take len.toNat).foldl put o
  fill put ' ' (field_width - len).toNat o

/-- `case 'p'` -/
def convertPointer (d : Directive) (w : BitVec 32) (o : σ) : Option σ :=
  if d.field_width = -1 then
    print_number put w 16 8 d.precision { d.flags with ZEROPAD := true } o
  else print_number put w 16 d.field_width d.precision d.flags o

/-- The integer conversions. -/
def convertNumber (d : Directive) (w : BitVec 32) (base : Nat) (o : σ) : Option σ :=
  print_number put (convertWord d w) base d.field_width d.precision d.flags o

variable (strings : Strings)

/-- The directive with its conversion, and the arguments that are left. -/
def convert (d : Directive) (conversion : Char) (args : List (BitVec 32)) (o : σ) :
    Option (σ × List (BitVec 32)) :=
  let number := fun (base : Nat) (flags : FormatFlags) => do
    let (w, args) ← va_arg args
    let o ← convertNumber put { d with flags := flags } w base o
    return (o, args)
  match conversion with
  | 'c' => do
    let (w, args) ← va_arg args
    return (convertChar put d w o, args)
  | 's' => do
    let (w, args) ← va_arg args
    let s ← stringAt strings w
    return (convertString put d s o, args)
  | 'p' => do
    let (w, args) ← va_arg args
    let o ← convertPointer put d w o
    return (o, args)
  | '%' => some (put o '%', args)
  | 'o' => number 8 d.flags
  | 'X' => number 16 { d.flags with LARGE := true }
  | 'x' => number 16 d.flags
  | 'd' => number 10 { d.flags with SIGN := true }
  | 'i' => number 10 { d.flags with SIGN := true }
  | 'u' => number 10 d.flags
  | other => some (put (put o '%') other, args)

end

/-! ### The loop over the format -/

theorem readFlags_length (fmt : List Char) (flags : FormatFlags) :
    (readFlags fmt flags).2.length ≤ fmt.length := by
  fun_induction readFlags fmt flags with
  | case6 => exact Nat.le_refl _
  | _ _ _ ih => exact ih.trans (Nat.le_succ _)

theorem skip_atoi_length (s : List Char) (i : Int) : (skip_atoi s i).2.length ≤ s.length := by
  fun_induction skip_atoi s i with
  | case1 => exact Nat.le_refl _
  | case2 i c s hc ih => exact ih.trans (Nat.le_succ _)
  | case3 => exact Nat.le_refl _

theorem readCount_length {fmt rest : List Char} {args args' : List (BitVec 32)} {i : Int}
    (h : readCount fmt args = some (i, rest, args')) : rest.length ≤ fmt.length := by
  unfold readCount at h
  cases fmt with
  | nil =>
    cases h
    exact Nat.le_refl _
  | cons c fmt =>
    dsimp only at h
    split at h
    · cases h
      exact skip_atoi_length _ _
    · split at h
      · obtain ⟨⟨w, args'⟩, -, h⟩ := Option.map_eq_some_iff.mp h
        cases h
        exact Nat.le_succ _
      · cases h
        exact Nat.le_refl _

theorem readPrecision_length {fmt rest : List Char} {args args' : List (BitVec 32)} {i : Int}
    (h : readPrecision fmt args = some (i, rest, args')) : rest.length ≤ fmt.length := by
  unfold readPrecision at h
  split at h
  · obtain ⟨⟨precision, fmt, args'⟩, hcount, h⟩ := Option.map_eq_some_iff.mp h
    cases h
    exact (readCount_length hcount).trans (Nat.le_succ _)
  · cases h
    exact Nat.le_refl _

theorem readQualifier_length (fmt : List Char) : (readQualifier fmt).2.length ≤ fmt.length := by
  unfold readQualifier
  split
  · exact Nat.le_succ _
  · exact Nat.le_succ _
  · exact Nat.le_refl _

theorem readDirective_length {fmt rest : List Char} {args args' : List (BitVec 32)} {d : Directive}
    (h : readDirective fmt args = some (d, rest, args')) : rest.length ≤ fmt.length := by
  obtain ⟨⟨field_width, fmt1, args1⟩, hwidth, h⟩ := Option.bind_eq_some_iff.mp h
  obtain ⟨⟨precision, fmt2, args2⟩, hprecision, h⟩ := Option.bind_eq_some_iff.mp h
  cases h
  calc (readQualifier fmt2).2.length ≤ fmt2.length := readQualifier_length fmt2
    _ ≤ fmt1.length := readPrecision_length hprecision
    _ ≤ (readFlags fmt {}).2.length := readCount_length hwidth
    _ ≤ fmt.length := readFlags_length fmt {}

section

variable {σ : Type} (put : σ → Char → σ) (strings : Strings)

/-- The loop of `rt_vsnprintf`; nothing where an argument is missing or not what the format says. -/
def formatLoop (fmt : List Char) (args : List (BitVec 32)) (o : σ) : Option σ :=
  match fmt with
  | [] => some o
  | c :: fmt =>
    if c ≠ '%' then formatLoop fmt args (put o c)
    else
      match h : readDirective fmt args with
      | none => none
      | some (_, [], _) => some (put o '%')
      | some (d, conversion :: rest, args) =>
        (convert put strings d conversion args o).bind fun (o, args) => formatLoop rest args o
termination_by fmt.length
decreasing_by
  · exact Nat.lt_succ_self _
  · have := readDirective_length h
    rw [List.length_cons] at this ⊢
    omega

end

/-- The text of a format: what an unlimited buffer holds. -/
def formatText (strings : Strings) (fmt : List Char) (args : List (BitVec 32)) : Option (List Char) :=
  formatLoop append strings fmt args []

/-! ### The buffer -/

/-- The cursor `str`, and memory. -/
structure Cursor where
  str : Nat
  memory : Nat → Char

/-- `if (str < end) *str = c; ++ str` -/
def Cursor.put (stop : Nat) (o : Cursor) (c : Char) : Cursor where
  str := add32 o.str 1
  memory := if o.str < stop then Function.update o.memory o.str c else o.memory

/-- The memory afterwards, and the number returned. -/
def rt_vsnprintf (strings : Strings) (buf size : Nat) (memory : Nat → Char) (fmt : List Char)
    (args : List (BitVec 32)) : Option ((Nat → Char) × Int) := do
  let stop := add32 buf size
  let (stop, size) := if stop < buf then (2 ^ 32 - 1, 2 ^ 32 - 1 - buf) else (stop, size)
  let o ← formatLoop (Cursor.put stop) strings fmt args ⟨buf, memory⟩
  let memory :=
    if 0 < size then
      if o.str < stop then Function.update o.memory o.str NUL
      else Function.update o.memory (stop - 1) NUL
    else o.memory
  return (memory, int32 (sub32 o.str buf))

end Ab32Vg1.Kernel
