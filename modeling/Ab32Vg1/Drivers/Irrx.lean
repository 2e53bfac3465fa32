import Ab32Vg1.Kernel.Def
import Ab32Vg1.ProofKit.Transition

/-! The infrared receiver of `drv_irrx.c` in software: timer 3 captures the falling edges, and the
interrupt counts the bits of an NEC message by the intervals between them. -/

namespace Ab32Vg1.Drivers

open Kernel ProofKit

/-- Bits of `TMR3CON`: an overflow and a capture are pending. -/
def TMR3_OVERFLOW : BitVec 32 := 1 <<< 16

def TMR3_CAPTURE : BitVec 32 := 1 <<< 17

def TMR3_RCLK : Nat := 1000

def NO_KEY : BitVec 16 := 0

/-- `struct ab32_irrx_data`. -/
structure Irrx where
  cnt : Nat
  rpt_cnt : Nat
  addr : BitVec 16
  cmd : BitVec 16
  deriving DecidableEq, Repr

namespace Irrx

/-- `ab32_get_irkey`: the address and the command, if a key is pressed. -/
def ab32_get_irkey (irrx : Irrx) : Option (BitVec 16 × BitVec 16) :=
  if irrx.cnt ≠ 32 then none else some (irrx.addr, irrx.cmd)

def ab32_clr_irkey (irrx : Irrx) : Irrx := { irrx with cnt := 0 }

/-- The interval that an interrupt stands for, in milliseconds. -/
def tmrcnt (TMR3CON : BitVec 32) (TMR3CPT : Nat) : Option Nat :=
  if TMR3CON &&& TMR3_CAPTURE ≠ 0 then some (TMR3CPT / TMR3_RCLK)
  else if TMR3CON &&& TMR3_OVERFLOW ≠ 0 then some 110
  else none

/-- What the interrupt does with an interval. -/
def interval (irrx : Irrx) (tmrcnt : Nat) : Irrx :=
  if irrx.cnt = 32 then
    if 10 ≤ tmrcnt ∧ tmrcnt ≤ 12 then { irrx with rpt_cnt := 0 }
    else
      let irrx := { irrx with rpt_cnt := (irrx.rpt_cnt + tmrcnt) % 65536 }
      if 108 < irrx.rpt_cnt then { irrx with rpt_cnt := 0, cnt := 0 } else irrx
  else if 7 < tmrcnt ∨ tmrcnt = 0 then { irrx with rpt_cnt := 0, cnt := 0 }
  else
    let irrx := { irrx with cmd := irrx.cmd >>> 1, cnt := (irrx.cnt + 1) % 65536 }
    let irrx := if tmrcnt = 2 then { irrx with cmd := irrx.cmd ||| 0x8000 } else irrx
    if irrx.cnt = 16 then { irrx with addr := irrx.cmd }
    else if irrx.cnt = 32 ∧ 96 < (irrx.cmd.setWidth 8).toNat then { irrx with cmd := NO_KEY }
    else irrx

def irrx_isr (irrx : Irrx) (TMR3CON : BitVec 32) (TMR3CPT : Nat) : Irrx :=
  match tmrcnt TMR3CON TMR3CPT with
  | some ms => irrx.interval ms
  | none => irrx

end Irrx

/-! ### Messages -/

/-- The bits since the last start interval, the last one first, if all intervals since are bits. -/
def irMessage : List Nat → Option (List Nat)
  | [] => none
  | ms :: seen =>
    if 7 < ms then some []
    else if ms = 1 ∨ ms = 2 then (irMessage seen).map (ms :: ·)
    else none

/-- The number that bits make, the first one the least. -/
def irValue : List Nat → Nat
  | [] => 0
  | ms :: bits => (if ms = 2 then 2 ^ bits.length else 0) + irValue bits

/-- The address and the command of a message. -/
def irKey (bits : List Nat) : BitVec 16 × BitVec 16 :=
  let cmd := BitVec.ofNat 16 (irValue bits / 65536)
  (BitVec.ofNat 16 (irValue bits), if 96 < cmd.toNat % 256 then NO_KEY else cmd)

/-- The keys of the messages in a sequence of intervals, both with the last one first. -/
def irKeys : List Nat → List (BitVec 16 × BitVec 16)
  | [] => []
  | ms :: seen =>
    match irMessage (ms :: seen) with
    | some bits => if bits.length = 32 then irKey bits :: irKeys seen else irKeys seen
    | none => irKeys seen

/-- A message is a start interval and bits right after it. -/
theorem irMessage_eq_some {seen bits : List Nat} :
    irMessage seen = some bits ↔
      ∃ start older, 7 < start ∧ seen = bits ++ start :: older ∧ ∀ ms ∈ bits, ms = 1 ∨ ms = 2 := by
  induction seen generalizing bits with
  | nil => simp [irMessage]
  | cons ms seen ih =>
    rw [irMessage]
    split
    · next hstart =>
      constructor
      · rintro h
        cases h
        exact ⟨ms, seen, hstart, rfl, by simp⟩
      · rintro ⟨start, older, -, heq, hbits⟩
        cases bits with
        | nil => rfl
        | cons b bits =>
          cases heq
          have := hbits ms List.mem_cons_self
          omega
    · next hshort =>
      cases bits with
      | nil =>
        constructor
        · intro h
          split at h
          · simp at h
          · cases h
        · rintro ⟨start, older, hstart, heq, -⟩
          cases heq
          exact absurd hstart hshort
      | cons b bits =>
        constructor
        · intro h
          split at h
          · next hbit =>
            obtain ⟨bits', hm, heq⟩ := Option.map_eq_some_iff.mp h
            cases heq
            obtain ⟨start, older, hstart, rfl, hbits⟩ := ih.mp hm
            exact ⟨start, older, hstart, rfl, fun m hm => by
              rcases List.mem_cons.mp hm with rfl | hm
              · exact hbit
              · exact hbits m hm⟩
          · cases h
        · rintro ⟨start, older, hstart, heq, hbits⟩
          cases heq
          rw [if_pos (hbits ms List.mem_cons_self),
            ih.mpr ⟨start, older, hstart, rfl, fun m hm => hbits m (List.mem_cons_of_mem _ hm)⟩]
          rfl

/-! ### The receiver -/

/-- The receiver. Not in the code: the intervals it has had and the keys it has reported, the last one
first. -/
structure IrSystem where
  irrx : Irrx
  seen : List Nat
  keys : List (BitVec 16 × BitVec 16)
  deriving DecidableEq, Repr

inductive IrStep
  | isr (TMR3CON : BitVec 32) (TMR3CPT : Nat)
  | clear
  deriving Repr

namespace IrSystem

/-- The interrupt, which reports a key when it makes one; or the key is cleared. -/
def step (c : IrSystem) : IrStep → IrSystem
  | .isr TMR3CON TMR3CPT =>
    let irrx := c.irrx.irrx_isr TMR3CON TMR3CPT
    { irrx := irrx
      seen := (Irrx.tmrcnt TMR3CON TMR3CPT).toList ++ c.seen
      keys := (if c.irrx.cnt ≠ 32 then irrx.ab32_get_irkey else none).toList ++ c.keys }
  | .clear => { c with irrx := c.irrx.ab32_clr_irkey }

/-- `_irrx_hw_init`. -/
def Fresh (c : IrSystem) : Prop := c = ⟨⟨0, 0, 0, 0⟩, [], []⟩

/-- The next interval is a bit of a message that has begun. -/
def Bit (c : IrSystem) (ms : Nat) : Prop :=
  (ms = 1 ∨ ms = 2) ∧ ∃ bits ∈ irMessage c.seen, bits.length < 32

instance (c : IrSystem) (ms : Nat) : Decidable (c.Bit ms) :=
  inferInstanceAs (Decidable (_ ∧ _))

/-- An interval of 1 to 7 ms is a bit of a message where no key is held, and none where one is. The key
is not cleared in the middle of a message. -/
def Sound (c : IrSystem) : IrStep → Prop
  | .isr TMR3CON TMR3CPT =>
    ∀ ms ∈ Irrx.tmrcnt TMR3CON TMR3CPT, 1 ≤ ms → ms ≤ 7 → (c.Bit ms ↔ c.irrx.cnt ≠ 32)
  | .clear => c.irrx.cnt = 32 ∨ c.irrx.cnt = 0

end IrSystem

def irMachine : Machine IrSystem IrStep where
  start := IrSystem.Fresh
  step c l c' := c.step l = c'

/-- The keys reported are those of the messages received. -/
def IrContract (c : IrSystem) : Prop := c.keys = irKeys c.seen

/-! ### The shift register -/

theorem irValue_lt (bits : List Nat) : irValue bits < 2 ^ bits.length := by
  induction bits with
  | nil => decide
  | cons ms bits ih =>
    rw [irValue, List.length_cons, Nat.pow_succ]
    split <;> omega

/-- The bits have gone through `cmd`, in which `old` was before, and the first 16 are in `addr`. -/
structure Shifted (irrx : Irrx) (bits : List Nat) : Prop where
  cmd : ∃ old < 65536, irrx.cmd.toNat = (old + 65536 * irValue bits) / 2 ^ bits.length
  addr : 16 ≤ bits.length → irrx.addr.toNat = irValue bits % 65536

theorem Shifted.nil (irrx : Irrx) : Shifted irrx [] :=
  ⟨⟨irrx.cmd.toNat, irrx.cmd.isLt, by simp [irValue]⟩, fun h => absurd h (by decide)⟩

/-- One bit goes into `cmd` from the top. -/
theorem shiftIn_toNat (cmd : BitVec 16) (b : Bool) :
    (if b then cmd >>> 1 ||| 0x8000 else cmd >>> 1).toNat = cmd.toNat / 2 + if b then 32768 else 0 := by
  have hlt := cmd.isLt
  have hhalf : (cmd >>> 1).toNat = cmd.toNat / 2 := by
    rw [BitVec.toNat_ushiftRight, Nat.shiftRight_eq_div_pow]
  cases b with
  | false => simpa using hhalf
  | true =>
    have hor := Nat.two_pow_add_eq_or_of_lt (show cmd.toNat / 2 < 2 ^ 15 by omega) 1
    simp only [if_true, BitVec.toNat_or, hhalf]
    rw [Nat.or_comm]
    simpa [Nat.add_comm] using hor.symm

theorem div_shift (old v n b : Nat) :
    (old + 65536 * v) / 2 ^ n / 2 + 32768 * b = (old + 65536 * (2 ^ n * b + v)) / 2 ^ (n + 1) := by
  have hpos : 0 < 2 ^ (n + 1) := Nat.two_pow_pos _
  rw [Nat.div_div_eq_div_mul, ← Nat.pow_succ, ← Nat.add_mul_div_right _ _ hpos]
  congr 1
  rw [Nat.pow_succ]
  ring

/-- `cmd` after one more bit. -/
theorem Shifted.cmd_cons {irrx : Irrx} {bits : List Nat} (h : Shifted irrx bits) (ms : Nat) :
    ∃ old < 65536, (if ms = 2 then irrx.cmd >>> 1 ||| 0x8000 else irrx.cmd >>> 1).toNat =
      (old + 65536 * irValue (ms :: bits)) / 2 ^ (bits.length + 1) := by
  obtain ⟨old, hold, hcmd⟩ := h.cmd
  refine ⟨old, hold, ?_⟩
  have hin := shiftIn_toNat irrx.cmd (decide (ms = 2))
  simp only [decide_eq_true_eq] at hin
  rw [hin, hcmd, irValue]
  split
  · simpa using div_shift old (irValue bits) bits.length 1
  · simpa using div_shift old (irValue bits) bits.length 0

/-- Once 16 bits have gone through, `cmd` holds the last 16 of them. -/
theorem cmd_full {old v n : Nat} (hold : old < 65536) :
    (old + 65536 * v) / 2 ^ (16 + n) = v / 2 ^ n := by
  rw [Nat.pow_add, ← Nat.div_div_eq_div_mul]
  congr 1
  omega

/-- A bit of a message. -/
theorem Shifted.bit {irrx : Irrx} {bits : List Nat} {ms : Nat} (h : Shifted irrx bits)
    (hcnt : irrx.cnt = bits.length) (hlt : bits.length < 32) (hms : ms = 1 ∨ ms = 2) :
    (irrx.interval ms).cnt = bits.length + 1 ∧
    (bits.length + 1 < 32 → Shifted (irrx.interval ms) (ms :: bits)) ∧
    (bits.length + 1 = 32 → (irrx.interval ms).ab32_get_irkey = some (irKey (ms :: bits))) := by
  obtain ⟨old, hold, hcmd⟩ := h.cmd_cons ms
  have hv := irValue_lt (ms :: bits)
  have hinterval : irrx.interval ms =
      let cmd := if ms = 2 then irrx.cmd >>> 1 ||| 0x8000 else irrx.cmd >>> 1
      if bits.length + 1 = 16 then { irrx with cmd := cmd, cnt := bits.length + 1, addr := cmd }
      else if bits.length + 1 = 32 ∧ 96 < (cmd.setWidth 8).toNat then
        { irrx with cmd := NO_KEY, cnt := bits.length + 1 }
      else { irrx with cmd := cmd, cnt := bits.length + 1 } := by
    have hmod : (bits.length + 1) % 65536 = bits.length + 1 := Nat.mod_eq_of_lt (by omega)
    rw [Irrx.interval, if_neg (by omega), if_neg (by omega)]
    simp only [hcnt, hmod]
    split <;> rfl
  generalize hc : (if ms = 2 then irrx.cmd >>> 1 ||| 0x8000 else irrx.cmd >>> 1) = cmd at hcmd hinterval
  have haddr : 16 ≤ bits.length → irrx.addr.toNat = irValue (ms :: bits) % 65536 := by
    intro h16
    obtain ⟨n, hn⟩ := Nat.exists_eq_add_of_le h16
    rw [h.addr h16, irValue]
    split
    · rw [hn, Nat.pow_add, Nat.mul_add_mod]
    · rw [Nat.zero_add]
  rw [hinterval]
  dsimp only
  by_cases h16 : bits.length + 1 = 16
  · rw [if_pos h16]
    refine ⟨rfl, fun _ => ⟨⟨old, hold, hcmd⟩, fun _ => ?_⟩, fun h32 => by omega⟩
    show cmd.toNat = _
    rw [hcmd, h16, cmd_full (n := 0) hold, Nat.pow_zero, Nat.div_one, Nat.mod_eq_of_lt]
    rw [List.length_cons, h16] at hv
    exact hv
  · rw [if_neg h16]
    by_cases h32 : bits.length + 1 = 32
    · rw [h32, cmd_full (n := 16) hold] at hcmd
      have hkey : cmd = BitVec.ofNat 16 (irValue (ms :: bits) / 65536) := by
        apply BitVec.eq_of_toNat_eq
        rw [List.length_cons, h32] at hv
        have hlt : irValue (ms :: bits) / 65536 < 2 ^ 16 := Nat.div_lt_of_lt_mul hv
        rw [BitVec.toNat_ofNat, Nat.mod_eq_of_lt hlt]
        exact hcmd
      have hlow : irrx.addr = BitVec.ofNat 16 (irValue (ms :: bits)) := by
        apply BitVec.eq_of_toNat_eq
        rw [haddr (by omega), BitVec.toNat_ofNat]
      have hbyte : (cmd.setWidth 8).toNat = cmd.toNat % 256 := BitVec.toNat_setWidth 8 cmd
      refine ⟨by split <;> rfl, fun hl => by omega, fun _ => ?_⟩
      simp only [irKey, ← hkey, ← hlow]
      by_cases hno : 96 < cmd.toNat % 256
      · rw [if_pos ⟨h32, hbyte ▸ hno⟩, if_pos hno]
        exact if_neg (not_not.mpr h32)
      · rw [if_neg (fun hc => hno (hbyte ▸ hc.2)), if_neg hno]
        exact if_neg (not_not.mpr h32)
    · rw [if_neg (fun hc => h32 hc.1)]
      exact ⟨rfl, fun _ => ⟨⟨old, hold, hcmd⟩, fun hl => haddr (by
        rw [List.length_cons] at hl
        omega)⟩, fun h => absurd h h32⟩

/-! ### Runs -/

/-- An interval that completes no message leaves the keys. -/
theorem irKeys_cons {ms : Nat} {seen : List Nat}
    (h : ∀ bits ∈ irMessage (ms :: seen), bits.length ≠ 32) : irKeys (ms :: seen) = irKeys seen := by
  rw [irKeys]
  split
  · next bits hm => rw [if_neg (h bits hm)]
  · rfl

theorem mem_irMessage_bit {ms : Nat} {seen bits : List Nat} (hms : ms = 1 ∨ ms = 2)
    (h : bits ∈ irMessage (ms :: seen)) : ∃ bits' ∈ irMessage seen, bits = ms :: bits' := by
  rw [irMessage, if_neg (by omega), if_pos hms] at h
  obtain ⟨bits', hm, rfl⟩ := Option.map_eq_some_iff.mp h
  exact ⟨bits', hm, rfl⟩

theorem mem_irMessage_start {ms : Nat} {seen bits : List Nat} (hms : ¬ (ms = 1 ∨ ms = 2))
    (h : bits ∈ irMessage (ms :: seen)) : bits = [] := by
  rw [irMessage] at h
  split at h
  · exact (Option.some.inj h).symm
  · cases h

namespace IrSystem

variable {c : IrSystem}

/-- The bits of the message that has begun have been counted and shifted; where a key is held, no bit
has come. -/
structure Inv (c : IrSystem) : Prop where
  keys : c.keys = irKeys c.seen
  counting : c.irrx.cnt ≠ 32 → ∀ bits ∈ irMessage c.seen, bits.length < 32 →
    c.irrx.cnt = bits.length ∧ Shifted c.irrx bits
  held : c.irrx.cnt = 32 → ∀ bits ∈ irMessage c.seen, bits.length < 32 → bits = []

theorem Fresh.inv (h : c.Fresh) : c.Inv := by
  subst h
  exact ⟨rfl, fun _ bits hm => (by cases hm), fun hc => (by cases hc)⟩

/-- Where a key is held, the interrupt changes only the count, which it may set to 0. -/
theorem interval_held {irrx : Irrx} (h : irrx.cnt = 32) (ms : Nat) :
    (irrx.interval ms).cnt = 32 ∨ (irrx.interval ms).cnt = 0 := by
  rw [Irrx.interval, if_pos h]
  dsimp only
  split
  · exact .inl h
  · split
    · exact .inr rfl
    · exact .inl h

theorem Inv.held_interval {ms : Nat} (h : c.Inv) (hheld : c.irrx.cnt = 32)
    (hbit : 1 ≤ ms → ms ≤ 7 → ¬ c.Bit ms) :
    Inv { irrx := c.irrx.interval ms, seen := ms :: c.seen, keys := c.keys } := by
  have hempty : ∀ bits ∈ irMessage (ms :: c.seen), bits.length < 33 → bits = [] := by
    intro bits hm hlt
    by_cases hms : ms = 1 ∨ ms = 2
    · obtain ⟨bits', hm', rfl⟩ := mem_irMessage_bit hms hm
      rw [List.length_cons] at hlt
      exact absurd ⟨hms, bits', hm', by omega⟩ (hbit (by omega) (by omega))
    · exact mem_irMessage_start hms hm
  refine ⟨?_, fun hne bits hm hlt => ?_, fun _ bits hm hlt => hempty bits hm (by omega)⟩
  · refine h.keys.trans (irKeys_cons fun bits hm hlen => ?_).symm
    have hnil := hempty bits hm (by omega)
    rw [hnil] at hlen
    cases hlen
  · have hnil := hempty bits hm (by omega)
    subst hnil
    exact ⟨(interval_held hheld ms).resolve_left hne, .nil _⟩

theorem Inv.isr {TMR3CON : BitVec 32} {TMR3CPT : Nat} (h : c.Inv)
    (hl : c.Sound (.isr TMR3CON TMR3CPT)) : (c.step (.isr TMR3CON TMR3CPT)).Inv := by
  simp only [step, Irrx.irrx_isr]
  simp only [Sound] at hl
  cases htmr : Irrx.tmrcnt TMR3CON TMR3CPT with
  | none =>
    have hkeys : (if c.irrx.cnt ≠ 32 then c.irrx.ab32_get_irkey else none) = none := by
      split
      · next hne => exact if_pos hne
      · rfl
    simp only [hkeys]
    exact h
  | some ms =>
    rw [htmr] at hl
    have hl := hl ms rfl
    dsimp only [Option.toList_some, List.singleton_append]
    by_cases hheld : c.irrx.cnt = 32
    · rw [if_neg (not_not.mpr hheld)]
      exact h.held_interval hheld fun h1 h7 hb => (hl h1 h7).mp hb hheld
    · rw [if_pos hheld]
      by_cases hbit : 1 ≤ ms ∧ ms ≤ 7
      · obtain ⟨hms, bits, hm, hlt⟩ := (hl hbit.1 hbit.2).mpr hheld
        obtain ⟨hcnt, hshift⟩ := h.counting hheld bits hm hlt
        obtain ⟨hcnt', hshift', hkey⟩ := hshift.bit hcnt hlt hms
        have hm' : irMessage (ms :: c.seen) = some (ms :: bits) := by
          rw [irMessage, if_neg (by omega), if_pos hms, show irMessage c.seen = some bits from hm]
          rfl
        by_cases h32 : bits.length + 1 = 32
        · rw [hkey h32]
          refine ⟨?_, fun hne => absurd (hcnt'.trans h32) hne, fun _ bits' hb hlt' => ?_⟩
          · show _ = irKeys (ms :: c.seen)
            rw [irKeys, hm', h.keys]
            exact (if_pos h32).symm
          · have hb : irMessage (ms :: c.seen) = some bits' := hb
            rw [hm'] at hb
            cases hb
            rw [List.length_cons] at hlt'
            omega
        · have hnone : (c.irrx.interval ms).ab32_get_irkey = none :=
            if_pos (by rw [hcnt']; exact h32)
          rw [hnone]
          refine ⟨?_, fun _ bits' hb hlt' => ?_, fun heq => absurd (hcnt'.symm.trans heq) h32⟩
          · refine h.keys.trans (irKeys_cons fun bits' hb hlen => ?_).symm
            rw [hm'] at hb
            cases hb
            exact h32 hlen
          · have hb : irMessage (ms :: c.seen) = some bits' := hb
            rw [hm'] at hb
            cases hb
            exact ⟨hcnt', hshift' hlt'⟩
      · -- A start interval, or one below 1 ms: the count begins again.
        have hreset : c.irrx.interval ms = { c.irrx with rpt_cnt := 0, cnt := 0 } := by
          rw [Irrx.interval, if_neg hheld, if_pos (by omega)]
        rw [hreset]
        have hnil : ∀ bits ∈ irMessage (ms :: c.seen), bits = [] := fun bits hm =>
          mem_irMessage_start (by omega) hm
        refine ⟨?_, fun _ bits hm _ => ?_, fun _ bits hm _ => hnil bits hm⟩
        · refine h.keys.trans (irKeys_cons fun bits hm hlen => ?_).symm
          rw [hnil bits hm] at hlen
          cases hlen
        · have hb := hnil bits hm
          subst hb
          exact ⟨rfl, .nil _⟩

theorem Inv.clear (h : c.Inv) (hl : c.Sound .clear) : (c.step .clear).Inv := by
  refine ⟨h.keys, fun _ bits hm hlt => ?_, fun hc => (by cases hc)⟩
  rcases hl with hheld | hzero
  · have hnil := h.held hheld bits hm hlt
    subst hnil
    exact ⟨rfl, .nil _⟩
  · obtain ⟨hcnt, hshift⟩ := h.counting (by omega) bits hm hlt
    exact ⟨hzero.symm.trans hcnt, ⟨hshift.cmd, hshift.addr⟩⟩

end IrSystem

open IrSystem

theorem irrx_decodes {c : IrSystem} (hr : (irMachine.restrict Sound).Reachable c) : IrContract c := by
  have hinv : c.Inv := by
    apply hr.invariant
    · exact fun c h => Fresh.inv h
    · rintro c l c' - h ⟨hl, rfl⟩
      cases l with
      | isr TMR3CON TMR3CPT => exact h.isr hl
      | clear => exact h.clear hl
  exact hinv.keys

instance IrSystem.decidableSound (c : IrSystem) (l : IrStep) : Decidable (c.Sound l) :=
  match l with
  | .isr _ _ => inferInstanceAs (Decidable (∀ ms ∈ _, _))
  | .clear => inferInstanceAs (Decidable (_ ∨ _))

/-- The steps that meet the condition. -/
def irStepSound (c : IrSystem) (l : IrStep) : Option IrSystem := if c.Sound l then some (c.step l) else none

theorem irStepSound_step {c c' : IrSystem} {l : IrStep} (h : irStepSound c l = some c') :
    (irMachine.restrict Sound).step c l c' := by
  rw [irStepSound] at h
  split at h
  · next hl => exact ⟨hl, Option.some.inj h⟩
  · cases h

/-- Captures after intervals in microseconds. -/
def captures (us : List Nat) : List IrStep := us.map (.isr TMR3_CAPTURE)

/-- The message of key 0x45 from the remote 0xff00, as it is sent: a start and 32 bits. -/
def keyMessage : List Nat :=
  13500 :: (List.range 32).map fun i => if (0xba45ff00 : BitVec 32).getLsbD i then 2250 else 1120

/-- The message comes after an edge and an overflow, is repeated and released, and comes again. -/
def pressTwice : List IrStep :=
  captures [5000000] ++ [.isr TMR3_OVERFLOW 0] ++ captures keyMessage ++ captures [40000, 11250] ++
    [.isr TMR3_OVERFLOW 0] ++ captures keyMessage ++ [.clear]

theorem irrx_decodes_twice : ∃ c,
    Machine.runs irStepSound ⟨⟨0, 0, 0, 0⟩, [], []⟩ pressTwice = some c ∧
      c.keys = [(0xff00, 0xba45), (0xff00, 0xba45)] ∧ IrContract c := by
  have hrun : ∃ c, Machine.runs irStepSound ⟨⟨0, 0, 0, 0⟩, [], []⟩ pressTwice = some c ∧
      c.keys = [(0xff00, 0xba45), (0xff00, 0xba45)] := by
    decide +kernel
  obtain ⟨c, hc, hkeys⟩ := hrun
  exact ⟨c, hc, hkeys, irrx_decodes
    ((Machine.Reachable.start rfl).runs (fun _ _ _ => irStepSound_step) hc)⟩

/-- After power on, 32 edges a millisecond apart make a key without a start, and so do a start and
intervals of 5 ms; a message that comes while a key is held is not reported. -/
theorem irrx_misreads :
    (∃ c, irMachine.Reachable c ∧ c.seen = List.replicate 32 1 ∧ c.keys ≠ [] ∧ ¬ IrContract c) ∧
    (∃ c, irMachine.Reachable c ∧ c.seen = List.replicate 32 5 ++ [9] ∧ c.keys ≠ [] ∧
      ¬ IrContract c) ∧
    ∃ c, irMachine.Reachable c ∧ (irKeys c.seen).length = 2 ∧ c.keys.length = 1 ∧
      ¬ IrContract c := by
  have reach : ∀ ls : List IrStep, irMachine.Reachable (ls.foldl IrSystem.step ⟨⟨0, 0, 0, 0⟩, [], []⟩) := by
    intro ls
    have hnext : ∀ c l c', some (IrSystem.step c l) = some c' → irMachine.step c l c' :=
      fun _ _ _ h => Option.some.inj h
    have hruns : Machine.runs (fun c l => some (IrSystem.step c l)) ⟨⟨0, 0, 0, 0⟩, [], []⟩ ls =
        some (ls.foldl IrSystem.step ⟨⟨0, 0, 0, 0⟩, [], []⟩) := by
      generalize (⟨⟨0, 0, 0, 0⟩, [], []⟩ : IrSystem) = c
      induction ls generalizing c with
      | nil => rfl
      | cons l ls ih => exact ih (c.step l)
    exact (Machine.Reachable.start rfl).runs hnext hruns
  refine ⟨⟨_, reach (captures (List.replicate 32 1000)), ?_⟩,
    ⟨_, reach (captures (9000 :: List.replicate 32 5000)), ?_⟩,
    ⟨_, reach (captures (keyMessage ++ keyMessage)), ?_⟩⟩
  · unfold IrContract
    decide +kernel
  · unfold IrContract
    decide +kernel
  · unfold IrContract
    decide +kernel

end Ab32Vg1.Drivers
