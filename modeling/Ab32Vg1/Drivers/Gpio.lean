import Ab32Vg1.Kernel.Def
import Mathlib.Logic.Function.Basic

/-! The ports: `hal_gpio_init` of `ab32vg1_hal_gpio.c`. -/

namespace Ab32Vg1.Drivers

open Kernel

/-- The registers of a port, in their order. -/
inductive GpioReg
  | SET
  | CLR
  | GPIO
  | DIR
  | DE
  | FEN
  | DRV
  | PU
  | PD
  | PU200K
  | PD200K
  | PU300K
  | PD300K
  deriving DecidableEq, Repr

def GPIO_DIR_INPUT : BitVec 8 := 0x01

def GPIO_DIR_OUTPUT : BitVec 8 := 0x02

def GPIO_DIGITAL : BitVec 8 := 0x01

def GPIO_ANALOG : BitVec 8 := 0x02

def GPIO_PULLUP : BitVec 8 := 0x01

def GPIO_PULLDOWN : BitVec 8 := 0x02

def GPIO_AFDIS : BitVec 32 := 0

def UT1RXMAP_AF : Nat := 28

def UT0RXMAP_AF : Nat := 12

def UT1RXMAP_TX : BitVec 32 := 0x3 <<< UT1RXMAP_AF

def UT0RXMAP_TX : BitVec 32 := 0x7 <<< UT0RXMAP_AF

/-- `struct gpio_init` -/
structure GpioInit where
  pin : BitVec 8
  dir : BitVec 8
  de : BitVec 8
  pull : BitVec 8
  alternate : BitVec 32
  af_con : BitVec 32

/-- A port, with the function mapping registers that all ports share. -/
structure Port where
  gpiox : GpioReg → BitVec 32
  FUNCMCON : BitVec 8 → BitVec 32

namespace Port

def setBit (p : Port) (r : GpioReg) (n : Nat) : Port :=
  { p with gpiox := Function.update p.gpiox r (p.gpiox r ||| BIT n) }

def clearBit (p : Port) (r : GpioReg) (n : Nat) : Port :=
  { p with gpiox := Function.update p.gpiox r (p.gpiox r &&& ~~~BIT n) }

def orMap (p : Port) (x : BitVec 8) (bits : BitVec 32) : Port :=
  { p with FUNCMCON := Function.update p.FUNCMCON x (p.FUNCMCON x ||| bits) }

end Port

def GPIO_GET_AFCON (af_con : BitVec 32) : BitVec 8 := ((af_con &&& 0x60) >>> 5).setWidth 8

def GPIO_AF_MAP_CLR (af : Nat) : BitVec 32 := 0xf <<< af

def gpio_afinit (p : Port) (pin : Nat) (alternate af_con : BitVec 32) : Port :=
  let is_rx_map_tx : BitVec 32 :=
    if alternate &&& UT1RXMAP_TX ≠ 0 ∨ alternate &&& UT0RXMAP_TX ≠ 0 then 1 else 0
  if af_con &&& 0xf0 ≠ GPIO_AFDIS then
    let x := GPIO_GET_AFCON af_con
    let p := p.setBit .FEN pin
    let p :=
      if is_rx_map_tx = UT1RXMAP_TX then p.orMap x (GPIO_AF_MAP_CLR UT1RXMAP_AF)
      else if is_rx_map_tx = UT0RXMAP_TX then p.orMap x (GPIO_AF_MAP_CLR UT0RXMAP_AF)
      else p
    (p.orMap x (GPIO_AF_MAP_CLR (af_con &&& 0x1f).toNat)).orMap x alternate
  else p

/-- The switch on the pull of an input. -/
def initPull (p : Port) (init : GpioInit) (iocurrent : Nat) : Port :=
  if init.pull = GPIO_PULLUP then p.setBit .PU iocurrent
  else if init.pull = GPIO_PULLDOWN then p.setBit .PD iocurrent
  else p

/-- The switch on the direction.  `GPIOxPD` is not among the registers that are cleared. -/
def initDir (p : Port) (init : GpioInit) (iocurrent : Nat) : Port :=
  if init.dir = GPIO_DIR_INPUT then
    let p := p.setBit .DIR iocurrent
    let p := p.clearBit .PU iocurrent
    let p := p.clearBit .PU200K iocurrent
    let p := p.clearBit .PD200K iocurrent
    let p := p.clearBit .PU300K iocurrent
    let p := p.clearBit .PD300K iocurrent
    initPull p init iocurrent
  else if init.dir = GPIO_DIR_OUTPUT then p.clearBit .DIR iocurrent
  else p

def initDe (p : Port) (init : GpioInit) (iocurrent : Nat) : Port :=
  if init.de = GPIO_DIGITAL then p.setBit .DE iocurrent
  else if init.de = GPIO_ANALOG then p.clearBit .DE iocurrent
  else p

/-- A turn of the loop. -/
def initPin (init : GpioInit) (p : Port) (iocurrent : Nat) : Port :=
  if init.pin.setWidth 32 &&& BIT iocurrent = 0 then p
  else
    let p := gpio_afinit p iocurrent init.alternate init.af_con
    initDe (initDir p init iocurrent) init iocurrent

def hal_gpio_init (p : Port) : Option GpioInit → Port
  | none => p
  | some init => (List.range 8).foldl (initPin init) p

/-- The calls one after the other. -/
def hal_gpio_inits (p : Port) (calls : List (Option GpioInit)) : Port := calls.foldl hal_gpio_init p

/-! ### Single bits -/

/-- The bit of a pin. -/
def Port.bit (p : Port) (r : GpioReg) (k : Nat) : Bool := (p.gpiox r).getLsbD k

section Bits

variable {p : Port} {r : GpioReg} {k n : Nat} {init : GpioInit}

theorem BIT_getLsbD (n k : Nat) : (BIT n).getLsbD k = (decide (k < 32) && decide (k = n)) := by
  simp only [BIT, BitVec.getLsbD_shiftLeft, BitVec.getLsbD_one]
  grind

@[simp] theorem Port.bit_setBit {s : GpioReg} : (p.setBit s n).bit r k =
    (p.bit r k || (decide (r = s) && (decide (k < 32) && decide (k = n)))) := by
  by_cases h : r = s
  · subst h
    simp only [Port.bit, Port.setBit, Function.update_self, BitVec.getLsbD_or, BIT_getLsbD,
      decide_true, Bool.true_and]
  · simp [Port.bit, Port.setBit, h]

@[simp] theorem Port.bit_clearBit {s : GpioReg} : (p.clearBit s n).bit r k =
    (p.bit r k && !(decide (r = s) && decide (k = n))) := by
  by_cases h : r = s
  · subst h
    simp only [Port.bit, Port.clearBit, Function.update_self, BitVec.getLsbD_and,
      BitVec.getLsbD_not, BIT_getLsbD, decide_true, Bool.true_and]
    by_cases hk : k < 32
    · rw [decide_eq_true hk]
      simp only [Bool.true_and]
    · rw [BitVec.getLsbD_of_ge (p.gpiox r) k (by omega)]
      simp only [Bool.false_and]
  · simp [Port.bit, Port.clearBit, h]

@[simp] theorem Port.bit_orMap {x : BitVec 8} {bits : BitVec 32} :
    (p.orMap x bits).bit r k = p.bit r k := rfl

/-- A mask of one bit tests that bit. -/
theorem and_BIT_eq_zero {x : BitVec 32} (h : n < 32) : x &&& BIT n = 0 ↔ x.getLsbD n = false := by
  have hand (k : Nat) : (x &&& BIT n).getLsbD k = (x.getLsbD k && decide (k = n)) := by
    rw [BitVec.getLsbD_and, BIT_getLsbD]
    by_cases heq : k = n
    · have hk : k < 32 := by omega
      rw [decide_eq_true hk, Bool.true_and]
    · simp only [heq, decide_false, Bool.and_false]
  constructor
  · intro hz
    have hbit := hand n
    rw [hz] at hbit
    simpa using hbit.symm
  · intro hz
    refine BitVec.eq_of_getLsbD_eq fun k _ => ?_
    rw [hand]
    by_cases heq : k = n
    · rw [heq, hz]
      exact (BitVec.getLsbD_zero).symm
    · simp [heq]

/-- The test of the loop reads the bit of the mask. -/
theorem named_iff (h : n < 8) : init.pin.setWidth 32 &&& BIT n = 0 ↔ init.pin.getLsbD n = false := by
  have hn : n < 32 := by omega
  rw [and_BIT_eq_zero hn, BitVec.getLsbD_setWidth, decide_eq_true hn, Bool.true_and]

/-- `gpio_afinit` touches no register of the port but `GPIOxFEN`. -/
theorem gpio_afinit_bit {alternate af_con : BitVec 32} :
    (gpio_afinit p n alternate af_con).bit r k =
      (p.bit r k || (decide (af_con &&& 0xf0 ≠ GPIO_AFDIS) && decide (r = .FEN) &&
        (decide (k < 32) && decide (k = n)))) := by
  rw [gpio_afinit]
  split
  · next h =>
    rw [decide_eq_true h]
    dsimp only
    split_ifs <;> simp only [Port.bit_orMap, Port.bit_setBit, Bool.true_and]
  · next h =>
    rw [decide_eq_false h]
    simp only [Bool.false_and, Bool.or_false]

/-- A turn changes only the bits of its pin. -/
theorem initPin_other (h : k ≠ n) : (initPin init p n).bit r k = p.bit r k := by
  have hpull (p : Port) : (initPull p init n).bit r k = p.bit r k := by
    rw [initPull]
    split_ifs <;> simp [h]
  have hdir (p : Port) : (initDir p init n).bit r k = p.bit r k := by
    rw [initDir]
    split_ifs <;> simp [h, hpull]
  have hde (p : Port) : (initDe p init n).bit r k = p.bit r k := by
    rw [initDe]
    split_ifs <;> simp [h]
  rw [initPin]
  split_ifs
  · rfl
  · simp [hde, hdir, gpio_afinit_bit, h]

/-- The pull that a call asks for, register by register. -/
def GpioInit.requested (init : GpioInit) : GpioReg → Bool
  | .PU => init.pull = GPIO_PULLUP
  | .PD => init.pull = GPIO_PULLDOWN
  | _ => false

/-- The registers that switch a pull on. -/
def GpioReg.IsPull (r : GpioReg) : Prop :=
  r = .PU ∨ r = .PD ∨ r = .PU200K ∨ r = .PD200K ∨ r = .PU300K ∨ r = .PD300K

/-- The call configures the pin as an input. -/
def GpioInit.NamesInput (init : GpioInit) (k : Nat) : Prop :=
  init.pin.getLsbD k = true ∧ init.dir = GPIO_DIR_INPUT

instance : Decidable (init.NamesInput k) := inferInstanceAs (Decidable (_ ∧ _))

/-- The bit of a pull register after a call, from the one before it. -/
def GpioInit.turned (init : GpioInit) (k : Nat) (r : GpioReg) (old : Bool) : Bool :=
  if init.NamesInput k then init.requested r || (decide (r = .PD) && old) else old

/-- A turn leaves `GPIOxPD` to grow, and sets every other pull register of its pin. -/
theorem initPin_pull (h : n < 8) (hr : r.IsPull) :
    (initPin init p n).bit r n = init.turned n r (p.bit r n) := by
  have hn : n < 32 := by omega
  have hfen : r ≠ .FEN := by rintro rfl; simp [GpioReg.IsPull] at hr
  have hdir : r ≠ .DIR := by rintro rfl; simp [GpioReg.IsPull] at hr
  have hde : r ≠ .DE := by rintro rfl; simp [GpioReg.IsPull] at hr
  have hlast (p : Port) : (initDe p init n).bit r n = p.bit r n := by
    rw [initDe]
    split_ifs <;> simp [hde]
  have hpull (p : Port) : (initPull p init n).bit r n = (p.bit r n || init.requested r) := by
    rw [initPull]
    split_ifs with hup hdown
    · rcases hr with rfl | rfl | rfl | rfl | rfl | rfl <;>
        simp [GpioInit.requested, hup, hn, GPIO_PULLUP, GPIO_PULLDOWN]
    · rcases hr with rfl | rfl | rfl | rfl | rfl | rfl <;>
        simp [GpioInit.requested, hdown, hn, GPIO_PULLUP, GPIO_PULLDOWN]
    · rcases hr with rfl | rfl | rfl | rfl | rfl | rfl <;>
        simp [GpioInit.requested, hup, hdown]
  rw [initPin, GpioInit.turned]
  by_cases hnamed : init.pin.getLsbD n = true
  · rw [if_neg (by rw [named_iff h, hnamed]; decide)]
    rw [hlast, initDir]
    by_cases hin : init.dir = GPIO_DIR_INPUT
    · rw [if_pos hin, if_pos ⟨hnamed, hin⟩, hpull]
      -- each clear answers for its own register
      rcases hr with rfl | rfl | rfl | rfl | rfl | rfl <;> simp [gpio_afinit_bit, Bool.or_comm]
    · have hnot : ¬init.NamesInput n := fun h => hin h.2
      rw [if_neg hin, if_neg hnot]
      split_ifs <;> simp [gpio_afinit_bit, hfen, hdir]
  · rw [if_pos ((named_iff h).mpr (by simpa using hnamed)), if_neg fun h => hnamed h.1]

/-- A bit that its own turn takes through `g` has gone through `g` once after the loop: the other
turns leave it alone. -/
theorem turns_bit {g : Bool → Bool} (m : Nat)
    (hg : k < m → ∀ q : Port, (initPin init q k).bit r k = g (q.bit r k)) :
    ((List.range m).foldl (initPin init) p).bit r k =
      if k < m then g (p.bit r k) else p.bit r k := by
  induction m with
  | zero => rfl
  | succ m ih =>
    rw [List.range_succ, List.foldl_append, List.foldl_cons, List.foldl_nil]
    by_cases heq : k = m
    · subst heq
      have hlt := Nat.lt_succ_self k
      rw [hg hlt, ih fun h => absurd h (Nat.lt_irrefl k), if_neg (Nat.lt_irrefl k), if_pos hlt]
    · rw [initPin_other heq, ih fun h => hg (by omega)]
      have hiff : k < m ↔ k < m + 1 := by omega
      simp only [hiff]

/-- The frame of a call. -/
theorem hal_gpio_init_other (h : init.pin.getLsbD k = false) :
    (hal_gpio_init p (some init)).bit r k = p.bit r k := by
  have hturn (hk : k < 8) (q : Port) : (initPin init q k).bit r k = id (q.bit r k) := by
    rw [initPin, if_pos ((named_iff hk).mpr h), id]
  rw [hal_gpio_init, turns_bit 8 hturn]
  split_ifs <;> rfl

/-- What a call does to a pull register. -/
theorem hal_gpio_init_pulls (hr : r.IsPull) :
    (hal_gpio_init p (some init)).bit r k = init.turned k r (p.bit r k) := by
  by_cases hk : k < 8
  · rw [hal_gpio_init, turns_bit 8 fun hk _ => initPin_pull hk hr, if_pos hk]
  · have hwide : init.pin.getLsbD k = false := BitVec.getLsbD_of_ge init.pin k (by omega)
    have hnot : ¬init.NamesInput k := fun h => absurd h.1 (by rw [hwide]; decide)
    rw [hal_gpio_init_other hwide, GpioInit.turned, if_neg hnot]

/-- `GPIOxPD` keeps every pull-down that was ever asked for. -/
theorem hal_gpio_inits_pd (calls : List (Option GpioInit)) :
    (hal_gpio_inits p calls).bit .PD k = true ↔ p.bit .PD k = true ∨
      ∃ init, some init ∈ calls ∧ init.NamesInput k ∧ init.pull = GPIO_PULLDOWN := by
  induction calls generalizing p with
  | nil => simp [hal_gpio_inits]
  | cons call calls ih =>
    rw [hal_gpio_inits, List.foldl_cons]
    refine (ih (p := hal_gpio_init p call)).trans ?_
    cases call with
    | none => simp [hal_gpio_init]
    | some init =>
      rw [hal_gpio_init_pulls (.inr (.inl rfl)), GpioInit.turned]
      by_cases hin : init.NamesInput k
      · rw [if_pos hin]
        simp only [GpioInit.requested, List.mem_cons]
        grind
      · rw [if_neg hin]
        grind

/-- What a call promises: each pin that it makes an input has the pull asked for and no other, and
the pins that it does not name keep their bits in all registers. -/
structure Configured (p p' : Port) (init : GpioInit) : Prop where
  pulls : ∀ k r, init.NamesInput k → r.IsPull → p'.bit r k = init.requested r
  frame : ∀ k r, init.pin.getLsbD k = false → p'.bit r k = p.bit r k

end Bits

/-- After any history a call keeps its promise exactly when it asks for a pull-down, or when none of
its pins has its pull-down on: neither from the start nor from an earlier call. -/
theorem hal_gpio_init_configured (p : Port) (calls : List (Option GpioInit)) (init : GpioInit) :
    Configured (hal_gpio_inits p calls) (hal_gpio_inits p (calls ++ [some init])) init ↔
      ∀ k, init.NamesInput k → init.pull = GPIO_PULLDOWN ∨ (p.bit .PD k = false ∧
        ∀ earlier, some earlier ∈ calls → earlier.NamesInput k → earlier.pull ≠ GPIO_PULLDOWN) := by
  have hstep : hal_gpio_inits p (calls ++ [some init]) =
      hal_gpio_init (hal_gpio_inits p calls) (some init) := by
    rw [hal_gpio_inits, List.foldl_append]
    rfl
  have hpd (k : Nat) : (hal_gpio_inits p calls).bit .PD k = false ↔ p.bit .PD k = false ∧
      ∀ earlier, some earlier ∈ calls → earlier.NamesInput k →
        earlier.pull ≠ GPIO_PULLDOWN := by
    rw [← Bool.not_eq_true, hal_gpio_inits_pd]
    grind
  rw [hstep]
  constructor
  · intro h k hin
    have hbit := h.pulls k .PD hin (.inr (.inl rfl))
    rw [hal_gpio_init_pulls (.inr (.inl rfl)), GpioInit.turned, if_pos hin] at hbit
    rw [← hpd]
    by_cases hdown : init.pull = GPIO_PULLDOWN
    · exact .inl hdown
    · right
      simpa [GpioInit.requested, hdown] using hbit
  · intro h
    refine ⟨fun k r hin hr => ?_, fun k r hnot => hal_gpio_init_other hnot⟩
    rw [hal_gpio_init_pulls hr, GpioInit.turned, if_pos hin]
    by_cases hreg : r = .PD
    · subst hreg
      rcases h k hin with hdown | hoff
      · simp [GpioInit.requested, hdown]
      · rw [(hpd k).mpr hoff]
        simp
    · simp [hreg]

/-- A pull-down, and then a pull-up of the same pin: both stay on. -/
theorem both_pulls_on :
    let idle : Port := ⟨fun _ => 0, fun _ => 0⟩
    let down : GpioInit := ⟨1, GPIO_DIR_INPUT, GPIO_DIGITAL, GPIO_PULLDOWN, 0, GPIO_AFDIS⟩
    let up : GpioInit := { down with pull := GPIO_PULLUP }
    ¬Configured (hal_gpio_inits idle [some down])
      (hal_gpio_inits idle ([some down] ++ [some up])) up := by
  intro idle down up h
  have hbit := h.pulls 0 .PD (by decide) (.inr (.inl rfl))
  revert hbit
  decide

end Ab32Vg1.Drivers
