import Ab32Vg1.Finsh.Token
import Mathlib.Algebra.Order.Ring.Nat
import Mathlib.Data.List.Chain

/-! The literals of the shell language, as C reads them: their texts, their values, and the characters
that could continue them. -/

namespace Ab32Vg1.Finsh

/-! ### Integers -/

inductive Base
  | dec
  | oct
  | hex
  | bin
  deriving DecidableEq, Repr

namespace Base

def radix : Base → Nat
  | dec => 10
  | oct => 8
  | hex => 16
  | bin => 2

def isDigit : Base → UInt8 → Bool
  | dec => is_digit
  | oct => is_odigit
  | hex => is_xdigit
  | bin => fun ch => ch == chr '0' || ch == chr '1'

/-- What comes before the digits. -/
def markers : Base → List (List UInt8)
  | dec => [[]]
  | oct => [[chr '0']]
  | hex => [[chr '0', chr 'x'], [chr '0', chr 'X']]
  | bin => [[chr '0', chr 'b'], [chr '0', chr 'B']]

end Base

/-- The value of a digit. -/
def digitVal (ch : UInt8) : Nat :=
  if is_digit ch then ch.toNat - '0'.toNat
  else if chr 'a' ≤ ch && ch ≤ chr 'f' then ch.toNat - 'a'.toNat + 10
  else ch.toNat - 'A'.toNat + 10

/-- The value of digits. -/
def digitsVal (radix : Nat) (digits : List UInt8) : Nat :=
  digits.foldl (fun v ch => v * radix + digitVal ch) 0

def isLong (ch : UInt8) : Bool := ch == chr 'l' || ch == chr 'L'

/-- `(0|0x|0X|0b|0B)digits` or a decimal number, with an optional `l` or `L`. -/
structure IntLit where
  base : Base
  marker : List UInt8
  digits : List UInt8
  suffix : Option UInt8
  marked : marker ∈ base.markers
  nonempty : digits ≠ []
  digit : ∀ d ∈ digits, base.isDigit d = true
  leading : base = .dec → digits = [chr '0'] ∨ digits.head? ≠ some (chr '0')
  long : ∀ ch ∈ suffix, isLong ch = true

namespace IntLit

def text (l : IntLit) : List UInt8 := l.marker ++ (l.digits ++ l.suffix.toList)

def value (l : IntLit) : Nat := digitsVal l.base.radix l.digits

def kind (l : IntLit) : TokenType := if l.suffix.isSome then .value_long else .value_int

end IntLit

/-! ### Characters and strings -/

/-- The simple escapes of C. -/
def simpleEscape (ch : UInt8) : Option UInt8 :=
  if ch = chr 'n' then some 10
  else if ch = chr 't' then some 9
  else if ch = chr 'v' then some 11
  else if ch = chr 'b' then some 8
  else if ch = chr 'r' then some 13
  else if ch = chr 'f' then some 12
  else if ch = chr 'a' then some 7
  else if ch = chr '\\' ∨ ch = chr '\'' ∨ ch = chr '"' ∨ ch = chr '?' then some ch
  else none

/-- The simple escapes that the switch of `token_proc_char` lists. -/
def charEscapes : List UInt8 :=
  [chr 'n', chr 't', chr 'v', chr 'b', chr 'r', chr '\\', chr '\'']

/-- An item between quotes. -/
inductive Item
  | plain (ch : UInt8)
  | simple (ch : UInt8)
  | octal (digits : List UInt8)
  | hex (x : UInt8) (digits : List UInt8)
  deriving DecidableEq, Repr

namespace Item

/-- `quote` ends the literal. -/
def Valid (quote : UInt8) : Item → Prop
  | plain ch => ch ≠ quote ∧ ch ≠ chr '\\' ∧ ch ≠ chr '\n' ∧ ch ≠ 0
  | simple ch => (simpleEscape ch).isSome
  | octal digits => digits ≠ [] ∧ digits.length ≤ 3 ∧ ∀ d ∈ digits, is_odigit d = true
  | hex x digits => (x = chr 'x' ∨ x = chr 'X') ∧ digits ≠ [] ∧ ∀ d ∈ digits, is_xdigit d = true

def text : Item → List UInt8
  | plain ch => [ch]
  | simple ch => [chr '\\', ch]
  | octal digits => chr '\\' :: digits
  | hex x digits => chr '\\' :: x :: digits

def value : Item → UInt8
  | plain ch => ch
  | simple ch => (simpleEscape ch).getD 0
  | octal digits => UInt8.ofNat (digitsVal 8 digits)
  | hex _ digits => UInt8.ofNat (digitsVal 16 digits)

/-- The next item does not begin with a digit that the escape before it would take. -/
def Apart : Item → Item → Prop
  | octal digits, plain ch => digits.length = 3 ∨ is_odigit ch = false
  | hex _ _, plain ch => is_xdigit ch = false
  | _, _ => True

end Item

/-- A plain character, one of the listed escapes, or a backslash and octal digits. -/
structure CharLit where
  item : Item
  valid : item.Valid (chr '\'')
  listed : ∀ ch, item = .simple ch → ch ∈ charEscapes
  noHex : ∀ x digits, item ≠ .hex x digits

def CharLit.text (l : CharLit) : List UInt8 := chr '\'' :: (l.item.text ++ [chr '\''])

structure StrLit where
  items : List Item
  valid : ∀ i ∈ items, i.Valid (chr '"')
  apart : items.IsChain Item.Apart

namespace StrLit

def text (l : StrLit) : List UInt8 := chr '"' :: (l.items.flatMap Item.text ++ [chr '"'])

def chars (l : StrLit) : List UInt8 := l.items.map Item.value

end StrLit

inductive Literal
  | int (l : IntLit)
  | char (l : CharLit)
  | str (l : StrLit)

namespace Literal

def text : Literal → List UInt8
  | int l => l.text
  | char l => l.text
  | str l => l.text

/-- A longer literal begins with this one and the character. -/
def Continues (l : Literal) (ch : UInt8) : Prop := ∃ l' : Literal, l.text ++ [ch] <+: l'.text

def kind : Literal → TokenType
  | int l => l.kind
  | char _ => .value_char
  | str _ => .value_string

/-- The state holds the value: the low word of an integer, and the characters of a string with a
`NUL` behind them. -/
def Holds : Literal → Token → Prop
  | int l, self => self.int_value.toNat = l.value % 2 ^ 32
  | char l, self => self.char_value = l.item.value
  | str l, self => self.string.take (l.chars.length + 1) = l.chars ++ [0]

end Literal

/-! ### Reading a literal -/

/-- The state reads a line after `before`, with `rest` left. -/
structure At (t : Token) (before rest : List UInt8) : Prop where
  line : t.line = before ++ rest
  position : t.position = before.length
  eof : t.eof = false

/-- The line ends here. -/
def AtEnd (rest : List UInt8) : Prop := ∀ ch ∈ rest.head?, ch = chr '\n'

instance (rest : List UInt8) : Decidable (AtEnd rest) :=
  match rest with
  | [] => .isTrue fun _ h => (by cases h)
  | ch :: _ => decidable_of_iff (ch = chr '\n') ⟨fun h c hc => by cases hc; exact h, fun h => h ch rfl⟩

/-- The position is just behind what was read; at the end of the line the end can have been seen. -/
def Behind (self : Token) (before rest : List UInt8) : Prop :=
  At self before rest ∨ (AtEnd rest ∧ self.eof = true)

/-- From every state in front of the literal one token is read, of its kind and with its value, and
the position is just behind it. -/
def Scans (l : Literal) (follow : List UInt8) : Prop :=
  ∀ self before, At self before (l.text ++ follow) → self.replay = false →
    ∃ self', finsh_token_token self = some (l.kind, self') ∧ l.Holds self' ∧
      Behind self' (before ++ l.text) follow

/-- The simple escapes of C that `token_proc_escape` does not know. -/
def forgotten (ch : UInt8) : Bool := ch == chr '\\' || ch == chr '\'' || ch == chr '?'

/-- The integers that are read: digits that the buffer holds, no suffix on 0, and in base 16 no suffix
and no letter or digit behind. -/
def IntLit.Read (l : IntLit) (follow : List UInt8) : Prop :=
  match l.base with
  | .dec => l.digits = [chr '0'] → l.suffix = none
  | .oct | .bin => l.digits.length < 128
  | .hex => l.digits.length < 128 ∧ l.suffix = none ∧
      ∀ ch ∈ follow.head?, (is_digit ch || is_alpha ch) = false

/-- The characters that are read: all but octal escapes of another value than 0. -/
def CharLit.Read (l : CharLit) : Prop := ∀ digits, l.item = .octal digits → l.item.value = 0

/-- The strings that are read: they fit the buffer, have no escape that is not known, and no digit
behind an octal escape. -/
def StrLit.Read (l : StrLit) : Prop :=
  l.items.length < FINSH_STRING_MAX ∧ (∀ ch, .simple ch ∈ l.items → forgotten ch = false) ∧
    l.items.IsChain fun i j => ∀ digits ch, i = .octal digits → j = .plain ch → is_odigit ch = false

def Literal.Read : Literal → List UInt8 → Prop
  | .int l, follow => l.Read follow
  | .char l, _ => l.Read
  | .str l, _ => l.Read

end Ab32Vg1.Finsh
