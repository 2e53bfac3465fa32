import Ab32Vg1.Drivers.Gpio
import Mathlib.Data.List.Induction
import Mathlib.Data.Nat.Digits.Defs
import Mathlib.Tactic.Ring

/-! `drv_gpio.c`: the names of the pins.  A pin number counts the pins of all ports; `port_table`
says which of them belong to a port. -/

namespace Ab32Vg1.Drivers.Pin

open Kernel

def RT_EINVAL : Int := 10

def GPIO_NOPULL : BitVec 8 := 0x00

def PIN_MODE_INPUT : Int := 0x01

def PIN_MODE_INPUT_PULLUP : Int := 0x02

def PIN_MODE_INPUT_PULLDOWN : Int := 0x03

/-- `struct port_info` -/
structure PortInfo where
  start_pin : Nat
  delta_pin : Nat
  total_pin : Nat
  deriving DecidableEq, Repr

def port_table : List PortInfo := [⟨0, 8, 0⟩, ⟨0, 5, 8⟩, ⟨0, 8, 13⟩, ⟨0, 6, 21⟩]

/-- The row of a port; the rows behind the table are only met as the value of `none` below. -/
def portRow (port : Nat) : PortInfo := port_table.getD port ⟨0, 0, 0⟩

/-- `_pin_port` -/
def pin_port (pin : BitVec 32) : Nat :=
  ((List.range 3).find? fun port =>
    pin.toNat < (portRow port).total_pin + (portRow port).delta_pin).getD 3

/-- `PIN_NUM`, without a value where the port has no row. -/
def PIN_NUM (port : Nat) (no : Int) : Option (BitVec 8) :=
  port_table[port]?.map fun row => BitVec.ofInt 8 (row.total_pin + no - row.start_pin)

def chr (c : Char) : UInt8 := UInt8.ofNat c.toNat

/-- The number of a port letter; `C` and `D` are left out. -/
def hwPort (c : UInt8) : Option Nat :=
  if chr 'A' ≤ c ∧ c ≤ chr 'B' then some (c.toNat - 'A'.toNat)
  else if chr 'E' ≤ c ∧ c ≤ chr 'G' then some (c.toNat - 'A'.toNat - 2)
  else none

/-- The loop over the digits; it takes any character for one. -/
def hwPinNum (digits : List UInt8) : Int :=
  digits.foldl (fun hw_pin_num c => hw_pin_num * 10 + ((c.toNat : Int) - '0'.toNat)) 0

/-- The name is the text before the `NUL`.  No value where `port_table` is read behind its end. -/
def ab32_pin_get (name : List UInt8) : Option Int :=
  let name_len := name.length
  if name_len < 4 ∨ name_len ≥ 6 then some (-RT_EINVAL)
  else if name.getD 0 0 ≠ chr 'P' ∨ name.getD 2 0 ≠ chr '.' then some (-RT_EINVAL)
  else
    match hwPort (name.getD 1 0) with
    | none => some (-RT_EINVAL)
    | some hw_port_num => (PIN_NUM hw_port_num (hwPinNum (name.drop 3))).map fun pin => pin.toNat

/-- The port of a pin number, as `ab32_pin_mode`, `ab32_pin_write` and `ab32_pin_read` find it. -/
def decodePort (pin : Int) : Nat := pin_port (BitVec.ofInt 32 pin)

/-- The number of the pin in its port. -/
def decodeNo (pin : Int) : Int := pin - (portRow (decodePort pin)).total_pin

def hal_gpio_write (p : Port) (pin : Nat) (state : BitVec 8) : Port :=
  if state = 0 then p.clearBit GpioReg.GPIO pin else p.setBit GpioReg.GPIO pin

def hal_gpio_read (p : Port) (pin : Nat) : Nat := if p.gpiox GpioReg.GPIO &&& BIT pin ≠ 0 then 1 else 0

def ab32_pin_write (sfr : Nat → Port) (pin value : Int) : Nat → Port :=
  let port := decodePort pin
  let gpio_pin := BitVec.ofInt 8 (decodeNo pin)
  Function.update sfr port (hal_gpio_write (sfr port) gpio_pin.toNat (BitVec.ofInt 8 value))

def ab32_pin_read (sfr : Nat → Port) (pin : Int) : Nat :=
  hal_gpio_read (sfr (decodePort pin)) (BitVec.ofInt 8 (decodeNo pin)).toNat

/-- The configuration that `ab32_pin_mode` hands to `hal_gpio_init`; `alternate` is what the stack
held. -/
def pinModeInit (alternate : BitVec 32) (pin mode : Int) : GpioInit :=
  let mask := (BIT (decodeNo pin).toNat).setWidth 8
  if mode = PIN_MODE_INPUT ∨ mode = PIN_MODE_INPUT_PULLUP then
    ⟨mask, GPIO_DIR_INPUT, GPIO_DIGITAL, GPIO_PULLUP, alternate, GPIO_AFDIS⟩
  else if mode = PIN_MODE_INPUT_PULLDOWN then
    ⟨mask, GPIO_DIR_INPUT, GPIO_DIGITAL, GPIO_PULLDOWN, alternate, GPIO_AFDIS⟩
  else ⟨mask, GPIO_DIR_OUTPUT, GPIO_DIGITAL, GPIO_NOPULL, alternate, GPIO_AFDIS⟩

def ab32_pin_mode (alternate : BitVec 32) (sfr : Nat → Port) (pin mode : Int) : Nat → Port :=
  let port := decodePort pin
  Function.update sfr port (hal_gpio_init (sfr port) (some (pinModeInit alternate pin mode)))

/-! ### What the names say -/

/-- The letters of the ports, in the order of the table. -/
def portLetters : List Char := ['A', 'B', 'E', 'F']

def digitChr (d : Nat) : UInt8 := UInt8.ofNat ('0'.toNat + d)

/-- The string is `P`, a letter, a dot and a decimal number. -/
def Reads (name : List UInt8) (letter : Char) (no : Nat) : Prop :=
  ∃ digits : List Nat, digits ≠ [] ∧ (∀ d ∈ digits, d < 10) ∧
    name = chr 'P' :: chr letter :: chr '.' :: digits.map digitChr ∧
    no = Nat.ofDigits 10 digits.reverse

/-- The string names a pin that the board has. -/
def NamesPin (name : List UInt8) (port no : Nat) : Prop :=
  ∃ h : port < portLetters.length, Reads name portLetters[port] no ∧ no < (portRow port).delta_pin

/-- A name that `ab32_pin_get` does not refuse: its tests ask for the length, the `P`, the dot and
the letter. -/
def Passes (name : List UInt8) : Prop :=
  4 ≤ name.length ∧ name.length < 6 ∧ name.getD 0 0 = chr 'P' ∧ name.getD 2 0 = chr '.' ∧
    hwPort (name.getD 1 0) ≠ none

instance (name : List UInt8) : Decidable (Passes name) := inferInstanceAs (Decidable (_ ∧ _))

/-- The name is refused, or the pin that it gets decodes to what the name says. -/
def Resolved (name : List UInt8) : Prop :=
  ab32_pin_get name = some (-RT_EINVAL) ∨
    ∃ port no pin, NamesPin name port no ∧ ab32_pin_get name = some pin ∧
      decodePort pin = port ∧ decodeNo pin = no

/-- At each row of the table `PIN_NUM` and the decoding agree. -/
theorem decode_pin : ∀ port < portLetters.length, ∀ no < (portRow port).delta_pin,
    ∃ pin, PIN_NUM port no = some pin ∧ decodePort pin.toNat = port ∧
      decodeNo pin.toNat = no := by
  decide

/-- Each letter of a port has its row. -/
theorem hwPort_letter : ∀ (port : Nat) (h : port < portLetters.length),
    hwPort (chr portLetters[port]) = some port := by
  decide

/-- On digits the loop reads the number. -/
theorem hwPinNum_digits {digits : List Nat} (h : ∀ d ∈ digits, d < 10) :
    hwPinNum (digits.map digitChr) = (Nat.ofDigits 10 digits.reverse : Nat) := by
  induction digits using List.reverseRec with
  | nil => rfl
  | append_singleton digits d ih =>
    have hd : d < 10 := h d (by simp)
    have hvalue : ((digitChr d).toNat : Int) - '0'.toNat = d := by
      have hnat : (digitChr d).toNat = '0'.toNat + d :=
        UInt8.toNat_ofNat_of_lt' (by have h0 : '0'.toNat = 48 := rfl; simp only [UInt8.size]; omega)
      rw [hnat]
      omega
    have hinit := ih fun e he => h e (by simp [he])
    rw [hwPinNum] at hinit ⊢
    rw [List.map_append, List.foldl_append, hinit, List.map_cons, List.map_nil, List.foldl_cons,
      List.foldl_nil, hvalue, List.reverse_append, List.reverse_singleton, List.singleton_append,
      Nat.ofDigits_cons]
    push_cast
    ring

theorem ab32_pin_get_passes {name : List UInt8} {port : Nat} (h : Passes name)
    (hport : hwPort (name.getD 1 0) = some port) :
    ab32_pin_get name =
      (PIN_NUM port (hwPinNum (name.drop 3))).map fun pin => (pin.toNat : Int) := by
  obtain ⟨hlow, hhigh, hp, hdot, -⟩ := h
  have hlen : ¬(name.length < 4 ∨ name.length ≥ 6) := by omega
  have hchars : ¬(name.getD 0 0 ≠ chr 'P' ∨ name.getD 2 0 ≠ chr '.') := by simp only [hp, hdot]; simp
  rw [ab32_pin_get, if_neg hlen, if_neg hchars, hport]

theorem ab32_pin_get_refuses {name : List UInt8} (h : ¬Passes name) :
    ab32_pin_get name = some (-RT_EINVAL) := by
  rw [ab32_pin_get]
  split
  · rfl
  next hlen =>
    split
    · rfl
    next hchars =>
      rw [not_or, not_not, not_not] at hchars
      have hnone : hwPort (name.getD 1 0) = none := by
        by_contra hsome
        exact h ⟨by omega, by omega, hchars.1, hchars.2, hsome⟩
      rw [hnone]

/-- A pin number is not an error. -/
theorem ab32_pin_get_refused_iff {name : List UInt8} :
    ab32_pin_get name = some (-RT_EINVAL) ↔ ¬Passes name := by
  refine ⟨fun heq h => ?_, ab32_pin_get_refuses⟩
  obtain ⟨port, hport⟩ := Option.ne_none_iff_exists'.mp h.2.2.2.2
  rw [ab32_pin_get_passes h hport] at heq
  obtain ⟨pin, -, hpin⟩ := Option.map_eq_some_iff.mp heq
  simp only [RT_EINVAL] at hpin
  omega

/-- A name of a pin of the board that is not refused gets that pin. -/
theorem NamesPin.resolves {name : List UInt8} {port no : Nat} (h : NamesPin name port no)
    (hpass : Passes name) :
    ∃ pin, ab32_pin_get name = some pin ∧ decodePort pin = port ∧ decodeNo pin = no := by
  obtain ⟨hlt, ⟨digits, -, hdigits, rfl, rfl⟩, hno⟩ := h
  obtain ⟨pin, hnum, hdecode, hrest⟩ := decode_pin port hlt _ hno
  refine ⟨pin.toNat, ?_, hdecode, hrest⟩
  rw [ab32_pin_get_passes hpass (hwPort_letter port hlt), List.drop_succ_cons, List.drop_succ_cons,
    List.drop_succ_cons, List.drop_zero, hwPinNum_digits hdigits, hnum]
  rfl

/-- A name resolves exactly when a test refuses it, or when it writes a port of the table and, in
digits, the number of a pin that the port has. -/
theorem ab32_pin_get_resolved (name : List UInt8) :
    Resolved name ↔ ¬Passes name ∨ ∃ port no, NamesPin name port no := by
  constructor
  · rintro (hrefused | ⟨port, no, pin, hnames, -⟩)
    · exact .inl (ab32_pin_get_refused_iff.mp hrefused)
    · exact .inr ⟨port, no, hnames⟩
  · intro h
    by_cases hpass : Passes name
    · obtain ⟨port, no, hnames⟩ := h.resolve_left fun hnot => hnot hpass
      obtain ⟨pin, hget, hdecode⟩ := hnames.resolves hpass
      exact .inr ⟨port, no, pin, hnames, hget, hdecode⟩
    · exact .inl (ab32_pin_get_refuses hpass)

/-- `G` has no row in the table. -/
example : ab32_pin_get [chr 'P', chr 'G', chr '.', chr '0'] = none := by decide

/-- `PA.9` gets the pin 1 of the next port. -/
theorem pin_of_next_port :
    let name := [chr 'P', chr 'A', chr '.', chr '9']
    ab32_pin_get name = some 9 ∧ decodePort 9 = 1 ∧ ¬Resolved name := by
  intro name
  have hget : ab32_pin_get name = some 9 := by decide
  refine ⟨hget, by decide, ?_⟩
  rintro (hrefused | ⟨port, no, pin, ⟨hlt, ⟨digits, -, -, hname, -⟩, -⟩, hpin, hport, -⟩)
  · rw [hget] at hrefused
    revert hrefused
    decide
  · obtain rfl : 9 = pin := Option.some.inj (hget.symm.trans hpin)
    obtain rfl : 1 = port := (by decide : decodePort 9 = 1).symm.trans hport
    have hletter : chr 'A' = chr 'B' := (List.cons.inj (List.cons.inj hname).2).1
    revert hletter
    decide

/-! ### What a named pin reaches -/

section Named

variable {sfr : Nat → Port} {pin : Int} {port no : Nat}

theorem gpioPin_toNat (hno : decodeNo pin = no) (h : no < 8) :
    (BitVec.ofInt 8 (decodeNo pin)).toNat = no := by
  rw [hno, BitVec.ofInt_natCast, BitVec.toNat_ofNat, Nat.mod_eq_of_lt (by omega)]

/-- `ab32_pin_mode` leaves all bits alone but those of its pin. -/
theorem ab32_pin_mode_other {alternate : BitVec 32} {mode : Int} {q k : Nat} {r : GpioReg}
    (hport : decodePort pin = port) (hno : decodeNo pin = no) (h : q ≠ port ∨ k ≠ no) :
    (ab32_pin_mode alternate sfr pin mode q).bit r k = (sfr q).bit r k := by
  rw [ab32_pin_mode, hport]
  by_cases hq : q = port
  · subst hq
    have hk : k ≠ no := h.resolve_left (not_not_intro rfl)
    have hmask : (pinModeInit alternate pin mode).pin = (BIT no).setWidth 8 := by
      rw [pinModeInit, hno, Int.toNat_natCast]
      split_ifs <;> rfl
    rw [Function.update_self, hal_gpio_init_other]
    rw [hmask, BitVec.getLsbD_setWidth, BIT_getLsbD, decide_eq_false hk, Bool.and_false,
      Bool.and_false]
  · rw [Function.update_of_ne hq]

theorem hal_gpio_read_eq {p : Port} {n : Nat} (h : n < 32) :
    hal_gpio_read p n = if p.bit GpioReg.GPIO n then 1 else 0 := by
  have hz := and_BIT_eq_zero (x := p.gpiox GpioReg.GPIO) h
  rw [hal_gpio_read, Port.bit]
  by_cases hbit : (p.gpiox GpioReg.GPIO).getLsbD n = true
  · rw [if_pos hbit, if_pos fun h0 => absurd (hz.mp h0) (by rw [hbit]; decide)]
  · rw [if_neg hbit, if_neg (not_not_intro (hz.mpr (Bool.not_eq_true _ ▸ hbit)))]

/-- A read gets what was written last to the pin, and a write to one pin changes no other. -/
theorem ab32_pin_read_write {other value : Int} {port' no' : Nat} (hport : decodePort pin = port)
    (hno : decodeNo pin = no) (hport' : decodePort other = port') (hno' : decodeNo other = no')
    (h : no < 8) (h' : no' < 8) :
    ab32_pin_read (ab32_pin_write sfr pin value) other =
      if port' = port ∧ no' = no then (if BitVec.ofInt 8 value = 0 then 0 else 1)
      else ab32_pin_read sfr other := by
  have hwrite (p : Port) (state : BitVec 8) (k : Nat) :
      (hal_gpio_write p no state).bit GpioReg.GPIO k =
        if k = no then decide (state ≠ 0) else p.bit GpioReg.GPIO k := by
    rw [hal_gpio_write]
    by_cases hk : k = no
    · have hlt : k < 32 := by omega
      split_ifs with hs
      · simp [hs, ← hk]
      · simpa [← hk, hlt] using hs
    · split_ifs <;> simp [hk]
  rw [ab32_pin_read, ab32_pin_read, ab32_pin_write, gpioPin_toNat hno' h', hport',
    hal_gpio_read_eq (by omega), hal_gpio_read_eq (by omega), gpioPin_toNat hno h, hport]
  by_cases hq : port' = port
  · subst hq
    rw [Function.update_self, hwrite]
    by_cases hk : no' = no
    · simp only [hk, if_true, true_and]
      by_cases hv : BitVec.ofInt 8 value = 0 <;> simp [hv]
    · simp [hk]
  · rw [Function.update_of_ne hq]
    simp [hq]

end Named

end Ab32Vg1.Drivers.Pin
