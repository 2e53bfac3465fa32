import Mathlib.Data.List.TakeWhile

/-! `finsh_token.c`: the tokens of a line. A function that would write behind its buffer has no
value. -/

namespace Ab32Vg1.Finsh

def FINSH_STRING_MAX : Nat := 128

def FINSH_ERROR_OK : Nat := 0

def FINSH_ERROR_INVALID_TOKEN : Nat := 1

def FINSH_ERROR_EXPECT_TYPE : Nat := 2

def FINSH_ERROR_UNKNOWN_TYPE : Nat := 3

def FINSH_ERROR_VARIABLE_EXIST : Nat := 4

def FINSH_ERROR_EXPECT_OPERATOR : Nat := 5

def FINSH_ERROR_MEMORY_FULL : Nat := 6

def FINSH_ERROR_EXPECT_CHAR : Nat := 9

def FINSH_ERROR_UNEXPECT_END : Nat := 10

def FINSH_ERROR_UNKNOWN_TOKEN : Nat := 11

def FINSH_ERROR_UNKNOWN_SYMBOL : Nat := 13

def FINSH_ERROR_NULL_NODE : Nat := 14

/-- `enum finsh_token_type`. -/
inductive TokenType
  | left_paren
  | right_paren
  | comma
  | semicolon
  | mul
  | add
  | inc
  | sub
  | dec
  | div
  | mod
  | assign
  | and
  | or
  | xor
  | bitwise
  | shl
  | shr
  | void
  | char
  | short
  | int
  | long
  | unsigned
  | value_char
  | value_int
  | value_long
  | value_string
  | value_null
  | identifier
  | bad
  | eof
  deriving DecidableEq, Repr

/-- `struct finsh_token` with `global_errno`. The members of the union are read only after a token
that sets them; `long_value` is the same four bytes as `int_value`. -/
structure Token where
  eof : Bool
  replay : Bool
  position : Nat
  current_token : TokenType
  char_value : UInt8
  int_value : UInt32
  string : List UInt8
  line : List UInt8
  errno : Nat
  deriving DecidableEq, Repr

/-- The characters of a C string, before its `NUL`. -/
def cstr (buf : List UInt8) : List UInt8 := buf.takeWhile (· ≠ 0)

/-- `finsh_token_init`; no token function reads behind the `NUL` of the line. -/
def finsh_token_init (line : List UInt8) (errno : Nat) : Token :=
  { eof := false
    replay := false
    position := 0
    current_token := .eof
    char_value := 0
    int_value := 0
    string := List.replicate FINSH_STRING_MAX 0
    line := cstr line
    errno := errno }

def chr (c : Char) : UInt8 := UInt8.ofNat c.toNat

/-! ### Classes of characters -/

def is_alpha (ch : UInt8) : Bool :=
  (chr 'a' ≤ ch && ch ≤ chr 'z') || (chr 'A' ≤ ch && ch ≤ chr 'Z')

def is_digit (ch : UInt8) : Bool := chr '0' ≤ ch && ch ≤ chr '9'

def is_xdigit (ch : UInt8) : Bool :=
  is_digit ch || (chr 'a' ≤ ch && ch ≤ chr 'f') || (chr 'A' ≤ ch && ch ≤ chr 'F')

def is_odigit (ch : UInt8) : Bool := chr '0' ≤ ch && ch ≤ chr '7'

def is_separator (ch : UInt8) : Bool := !(is_alpha ch || is_digit ch || ch == chr '_')

def is_space (ch : UInt8) : Bool := ch == chr ' ' || ch == chr '\t' || ch == chr '\r'

namespace Token

def setError (self : Token) (errno : Nat) : Token := { self with errno := errno }

def setReplay (self : Token) : Token := { self with replay := true }

/-- The bytes written over the start of `string`. -/
def write (self : Token) (s : List UInt8) : Token :=
  { self with string := s ++ self.string.drop s.length }

end Token

/-! ### Reading characters -/

def token_next_char (self : Token) : UInt8 × Token :=
  if self.eof then (0, self)
  else
    match self.line[self.position]? with
    | none => (0, { self with eof := true, position := 0 })
    | some ch =>
      if ch = chr '\n' then (0, { self with eof := true, position := 0 })
      else (ch, { self with position := self.position + 1 })

def token_prev_char (self : Token) : Token :=
  if self.eof then self
  else if self.position = 0 then self
  else { self with position := self.position - 1 }

/-- The loops that read on while a class holds, from the character `ch` on: the characters of the
class, the one behind them and the state, in at most `n` turns. -/
@[grind] def token_while (c : UInt8 → Bool) : Nat → UInt8 → Token → List UInt8 × UInt8 × Token
  | 0, ch, self => ([], ch, self)
  | n + 1, ch, self =>
    if c ch then
      let (next, self) := token_next_char self
      let (chars, last, self) := token_while c n next self
      (ch :: chars, last, self)
    else ([], ch, self)

/-- As many turns as the line can keep a loop going, with the end of it. -/
def Token.turns (self : Token) : Nat := self.line.length + 1

def token_trim_space (self : Token) : Token :=
  let (ch, self) := token_next_char self
  let (_, _, self) := token_while is_space self.turns ch self
  token_prev_char self

/-- A name of `FINSH_STRING_MAX` characters or more does not fit `string`. A name that runs up to the
end of the line clears `eof` again, with the position at the start. -/
def token_get_string (self : Token) : Option Token :=
  let (ch, self) := token_next_char self
  if self.eof then some self
  else if is_digit ch then some (token_prev_char (self.write [0]))
  else
    let (name, _, self) := token_while (fun ch => !is_separator ch) self.turns ch (self.write [0])
    if FINSH_STRING_MAX ≤ name.length then none
    else some ((token_prev_char { self with eof := false }).write (name ++ [0]))

/-! ### Values -/

/-- The digit of a character: also letters behind the last digit of the base have a value. -/
def digitValue (ch : UInt8) : UInt32 :=
  if chr 'a' ≤ ch && ch ≤ chr 'f' then UInt32.ofNat ch.toNat - 97 + 10
  else if chr 'A' ≤ ch && ch ≤ chr 'F' then UInt32.ofNat ch.toNat - 65 + 10
  else UInt32.ofNat ch.toNat - 48

/-- The low word of the 64-bit number; `shift` is the width of a digit. -/
def token_spec_number (string : List UInt8) (shift : UInt32) : UInt32 :=
  string.foldl (fun v ch => (v <<< shift) ||| digitValue ch) 0

/-- The suffix of a number. -/
def numberSuffix (ch : UInt8) (self : Token) : Token :=
  if ch = chr 'l' ∨ ch = chr 'L' then { self with current_token := .value_long }
  else token_prev_char { self with current_token := .value_int }

/-- A number whose digits are collected in `buf`, of 128 bytes. -/
def specNumber (c : UInt8 → Bool) (shift : UInt32) (ch : UInt8) (self : Token) : Option Token :=
  let (buf, ch, self) := token_while c self.turns ch self
  if 128 ≤ buf.length then none
  else some (numberSuffix ch { self with int_value := token_spec_number buf shift })

def token_proc_number (self : Token) : Option Token :=
  let (ch, self) := token_next_char self
  if ch = chr '0' then
    let (ch, self) := token_next_char self
    if ch = chr 'x' ∨ ch = chr 'X' then
      let (ch, self) := token_next_char self
      specNumber (fun ch => is_digit ch || is_alpha ch) 4 ch self
    else if ch = chr 'b' ∨ ch = chr 'B' then
      let (ch, self) := token_next_char self
      specNumber (fun ch => ch == chr '0' || ch == chr '1') 1 ch self
    else if is_odigit ch then specNumber is_odigit 3 ch self
    else some { token_prev_char self with int_value := 0, current_token := .value_int }
  else
    let (digits, ch, self) := token_while is_digit self.turns ch self
    let value := digits.foldl (fun v ch => v * 10 + (UInt32.ofNat ch.toNat - 48)) 0
    some (numberSuffix ch { self with int_value := value })

/-- The character of a letter behind a backslash. -/
def escape (ch : UInt8) : Option UInt8 :=
  if ch = chr 'n' then some 10
  else if ch = chr 't' then some 9
  else if ch = chr 'v' then some 11
  else if ch = chr 'b' then some 8
  else if ch = chr 'r' then some 13
  else none

/-- The character behind a quote. The octal escape reads its digits into `buf`, of 4 bytes, and takes
the value of the empty string behind them, 0. -/
def charValue (self : Token) : Option (UInt8 × Token) :=
  let (ch, self) := token_next_char self
  if ch = chr '\\' then
    let (ch, self) := token_next_char self
    match escape ch with
    | some c => some (c, self)
    | none =>
      if ch = chr '\\' ∨ ch = chr '\'' then some (ch, self)
      else
        let (digits, _, self) := token_while is_digit self.turns ch self
        if 4 ≤ digits.length then none else some (0, token_prev_char self)
  else some (ch, self)

def token_proc_char (self : Token) : Option Token :=
  (charValue self).map fun (c, self) =>
    let (ch, self) := token_next_char self
    if ch = chr '\'' then { self with char_value := c }
    else { token_prev_char (self.setError FINSH_ERROR_EXPECT_CHAR) with char_value := c }

def token_proc_escape (self : Token) : UInt8 × Token :=
  let (ch, self) := token_next_char self
  match escape ch with
  | some c => (c, self)
  | none =>
    if ch = chr 'f' then (12, self)
    else if ch = chr 'a' then (7, self)
    else if ch = chr '"' then (chr '"', self)
    else if ch = chr 'x' ∨ ch = chr 'X' then
      let (ch, self) := token_next_char self
      let (digits, _, self) := token_while is_xdigit self.turns ch self
      (digits.foldl (fun v ch => v * 16 + UInt8.ofNat (digitValue ch).toNat) 0, token_prev_char self)
    else if is_odigit ch then
      let (digits, _, self) := token_while is_odigit self.turns ch self
      (digits.foldl (fun v ch => v * 8 + (ch - chr '0')) 0, token_prev_char self)
    else (0, self)

/-- The loop of `token_proc_string` with `n` bytes of `string` left, `s` the ones written. -/
def token_proc_string : Nat → List UInt8 → Token → Token
  | 0, s, self => self.write s
  | n + 1, s, self =>
    let (ch, self) := token_next_char self
    if self.eof then (self.write s).setError FINSH_ERROR_UNEXPECT_END
    else if ch = chr '\\' then
      let (ch, self) := token_proc_escape self
      token_proc_string n (s ++ [ch]) self
    else if ch = chr '"' then self.write (s ++ [0])
    else token_proc_string n (s ++ [ch]) self

/-! ### Tokens -/

def finsh_name_table : List (String × TokenType) :=
  [("void", .void),
    ("char", .char),
    ("short", .short),
    ("int", .int),
    ("long", .long),
    ("unsigned", .unsigned),
    ("NULL", .value_null),
    ("null", .value_null)]

def token_match_name (str : List UInt8) : Option TokenType :=
  (finsh_name_table.find? fun (name, _) => name.toList.map chr == str).map (·.2)

/-- The operators of one character. -/
def token_operator (ch : UInt8) : Option TokenType :=
  if ch = chr '(' then some .left_paren
  else if ch = chr ')' then some .right_paren
  else if ch = chr ',' then some .comma
  else if ch = chr ';' then some .semicolon
  else if ch = chr '&' then some .and
  else if ch = chr '*' then some .mul
  else if ch = chr '|' then some .or
  else if ch = chr '%' then some .mod
  else if ch = chr '~' then some .bitwise
  else if ch = chr '^' then some .xor
  else if ch = chr '=' then some .assign
  else none

/-- The tokens of a character that can come twice: the type when it does, and when it does not. A
comment is the end of the line to the parser. -/
def token_double (ch : UInt8) : Option (TokenType × TokenType) :=
  if ch = chr '+' then some (.inc, .add)
  else if ch = chr '-' then some (.dec, .sub)
  else if ch = chr '/' then some (.eof, .div)
  else if ch = chr '<' then some (.shl, .bad)
  else if ch = chr '>' then some (.shr, .bad)
  else none

/-- The switch of `token_run` on the first character of a token that is no name. -/
def token_switch (self : Token) : Option Token :=
  let (ch, self) := token_next_char self
  match token_operator ch with
  | some type => some { self with current_token := type }
  | none =>
    match token_double ch with
    | some (twice, once) =>
      let (next, self) := token_next_char self
      if next = ch then some { self with current_token := twice }
      else some { token_prev_char self with current_token := once }
    | none =>
      if ch = chr '\'' then
        (token_proc_char self).map fun self => { self with current_token := .value_char }
      else if ch = chr '"' then
        some { token_proc_string FINSH_STRING_MAX [] self with current_token := .value_string }
      else if is_digit ch then token_proc_number (token_prev_char self)
      else some { self.setError FINSH_ERROR_UNKNOWN_TOKEN with current_token := .bad }

def token_run (self : Token) : Option Token := do
  let self ← token_get_string (token_trim_space self)
  if self.eof then return { self with current_token := .eof }
  else if cstr self.string ≠ [] then
    return { self with current_token := (token_match_name (cstr self.string)).getD .identifier }
  else token_switch self

def finsh_token_token (self : Token) : Option (TokenType × Token) :=
  if self.replay then some (self.current_token, { self with replay := false })
  else (token_run self).map fun self => (self.current_token, self)

def finsh_token_replay (self : Token) : Token := self.setReplay

end Ab32Vg1.Finsh
