import Ab32Vg1.Kernel.Mem
import Ab32Vg1.ProofKit.BlockLoop

/-! The memory routines of `kservice.c`, on memory as bytes, a word with its low byte first. A `long` has
four bytes. The routines return the memory and their first argument; they have no value where C gives
them none: after an access to a word that is not aligned, or an `int` that runs out of its range. -/

namespace Ab32Vg1.Kernel

open ProofKit

namespace Memory

/-- `LBLOCKSIZE` of `rt_memset`. -/
def LBLOCKSIZE : Nat := 4

/-- `LITTLEBLOCKSIZE` of `rt_memcpy`. -/
def LITTLEBLOCKSIZE : Nat := 4

def BIGBLOCKSIZE : Nat := 4 <<< 2

/-- `*aligned_addr = buffer` -/
def setWord (aligned_addr buffer : Nat) (m : Bytes) : Option Bytes :=
  if aligned_addr % 4 = 0 then some (m.store aligned_addr 4 buffer) else none

/-- `*aligned_dst = *aligned_src` -/
def copyWord (aligned_dst aligned_src : Nat) (m : Bytes) : Option Bytes :=
  if aligned_src % 4 = 0 then setWord aligned_dst (m.load aligned_src 4) m else none

/-- `*tmp = *s` -/
def copyByte (tmp s : Nat) (m : Bytes) : Bytes := Function.update m tmp (m s)

/-! ### rt_memset -/

/-- The word with a byte in each of its places. -/
def splat (d : Nat) : Nat :=
  let buffer := (d <<< 8) ||| d
  buffer ||| (buffer <<< 16)

/-- The four words of the fast path at offset `i`. -/
def setFour (s buffer i : Nat) (m : Bytes) : Option Bytes := do
  let m ← setWord (s + i) buffer m
  let m ← setWord (s + i + 4) buffer m
  let m ← setWord (s + i + 8) buffer m
  setWord (s + i + 12) buffer m

/-- `while (count--) *m++ = (char)d;` -/
def setBytes (s d i count : Nat) (m : Bytes) : Bytes :=
  (blockLoop 1 (fun i m => Function.update m (s + i) (UInt8.ofNat d)) m i count).1

def rt_memset (m : Bytes) (s : Nat) (c : BitVec 32) (count : Nat) : Option (Bytes × Nat) :=
  let d := c.toNat &&& 0xff
  if ¬count < LBLOCKSIZE ∧ s &&& (LBLOCKSIZE - 1) = 0 then do
    let buffer := splat d
    let (m, i, count) := blockLoop (LBLOCKSIZE * 4) (fun i m => m.bind (setFour s buffer i)) (some m) 0
      count
    let (m, i, count) := blockLoop LBLOCKSIZE (fun i m => m.bind (setWord (s + i) buffer)) m i count
    let m ← m
    return (setBytes s d i count m, s)
  else some (setBytes s d 0 count m, s)

/-! ### rt_memcpy -/

/-- `UNALIGNED(X, Y)` -/
def UNALIGNED (x y : Nat) : Nat := (x &&& (LITTLEBLOCKSIZE - 1)) ||| (y &&& (LITTLEBLOCKSIZE - 1))

/-- The four words of the fast path at offset `i`. -/
def copyFour (dst src i : Nat) (m : Bytes) : Option Bytes := do
  let m ← copyWord (dst + i) (src + i) m
  let m ← copyWord (dst + i + 4) (src + i + 4) m
  let m ← copyWord (dst + i + 8) (src + i + 8) m
  copyWord (dst + i + 12) (src + i + 12) m

/-- `while (len--)`, with `len` an `int`: one that starts below zero runs out of its range before it
comes to zero. -/
def copyBytes (dst src i len : Nat) (m : Bytes) : Option Bytes :=
  if 2 ^ 31 ≤ len then none
  else some (blockLoop 1 (fun i m => copyByte (dst + i) (src + i) m) m i len).1

/-- `len` is an `int` that is compared as an unsigned number, since the sizes are unsigned: it is here
the number that its bits have. -/
def rt_memcpy (m : Bytes) (dst src count : Nat) : Option (Bytes × Nat) :=
  let len := count % 2 ^ 32
  if ¬len < BIGBLOCKSIZE ∧ UNALIGNED src dst = 0 then do
    let (m, i, len) := blockLoop BIGBLOCKSIZE (fun i m => m.bind (copyFour dst src i)) (some m) 0 len
    let (m, i, len) := blockLoop LITTLEBLOCKSIZE (fun i m => m.bind (copyWord (dst + i) (src + i))) m i
      len
    let m ← copyBytes dst src i len (← m)
    return (m, dst)
  else do
    let m ← copyBytes dst src 0 len m
    return (m, dst)

/-! ### rt_memmove -/

/-- The loop that goes down from the ends `tmp` and `s`. -/
def moveDown (m : Bytes) (tmp s : Nat) : (n : Nat) → Bytes
  | 0 => m
  | n + 1 => moveDown (copyByte (tmp - 1) (s - 1) m) (tmp - 1) (s - 1) n

def rt_memmove (m : Bytes) (dest src n : Nat) : Bytes × Nat :=
  if src < dest ∧ dest < (src + n) % 2 ^ 32 then (moveDown m (dest + n) (src + n) n, dest)
  else ((blockLoop 1 (fun i m => copyByte (dest + i) (src + i) m) m 0 n).1, dest)

/-! ### Ranges -/

/-- `count` bytes from `start` on. -/
structure Range where
  start : Nat
  count : Nat
  fits : start + count ≤ 2 ^ 32

/-- The operands of a copy: ranges of one length. -/
structure Operands where
  dst : Nat
  src : Nat
  count : Nat
  dst_fits : dst + count ≤ 2 ^ 32
  src_fits : src + count ≤ 2 ^ 32

/-- Operands that do not overlap. -/
structure ApartOperands extends Operands where
  apart : dst + count ≤ src ∨ src + count ≤ dst

/-! ### Blocks -/

section Blocks

variable {m : Bytes} {s d dst src i n : Nat}

/-- Every byte of the word is the byte. -/
theorem splat_byte : ∀ d < 256, ∀ j < 4, splat d / 256 ^ j % 256 = d := by decide +kernel

theorem setWord_filled (hd : d < 256) (hs : (s + i) % 4 = 0) :
    setWord (s + i) (splat d) (m.fill s (UInt8.ofNat d) i) =
      some (m.fill s (UInt8.ofNat d) (i + 4)) := by
  have hc : (UInt8.ofNat d).toNat = d := by
    rw [UInt8.toNat_ofNat', Nat.mod_eq_of_lt hd]
  rw [setWord, if_pos hs, Bytes.store_repeat _ _ _ _ (UInt8.ofNat d)
    (fun j hj => (splat_byte d hd j hj).trans hc.symm), Bytes.fill_fill]

theorem setFour_filled (hd : d < 256) (hs : (s + i) % 4 = 0) :
    setFour s (splat d) i (m.fill s (UInt8.ofNat d) i) = some (m.fill s (UInt8.ofNat d) (i + 16)) := by
  have h4 : (s + (i + 4)) % 4 = 0 := by omega
  have h8 : (s + (i + 8)) % 4 = 0 := by omega
  have h12 : (s + (i + 12)) % 4 = 0 := by omega
  simp only [setFour, Nat.add_assoc, setWord_filled hd hs, setWord_filled hd h4, setWord_filled hd h8,
    setWord_filled hd h12, Option.bind_eq_bind, Option.bind_some]

theorem copyWord_copied (hd : (dst + i) % 4 = 0) (hs : (src + i) % 4 = 0)
    (hapart : dst ≤ src ∨ src + (i + 4) ≤ dst) :
    copyWord (dst + i) (src + i) (m.copy dst src i) = some (m.copy dst src (i + 4)) := by
  rw [copyWord, if_pos hs, setWord, if_pos hd, Bytes.store_load]
  exact congrArg some (Bytes.copy_copy m hapart)

theorem copyFour_copied (hd : (dst + i) % 4 = 0) (hs : (src + i) % 4 = 0)
    (hapart : dst ≤ src ∨ src + (i + 16) ≤ dst) :
    copyFour dst src i (m.copy dst src i) = some (m.copy dst src (i + 16)) := by
  have h0 := copyWord_copied (m := m) hd hs (by omega)
  have h4 := @copyWord_copied m dst src (i + 4) (by omega) (by omega)
    (by omega)
  have h8 := @copyWord_copied m dst src (i + 8) (by omega) (by omega)
    (by omega)
  have h12 := @copyWord_copied m dst src (i + 12) (by omega) (by omega)
    (by omega)
  simp only [← Nat.add_assoc] at h4 h8 h12
  simp only [copyFour, h0, h4, h8, h12, Option.bind_eq_bind, Option.bind_some]

/-- A byte written is a range of one byte filled. -/
theorem update_eq_fill (m : Bytes) (a : Nat) (c : UInt8) : Function.update m a c = m.fill a c 1 := by
  funext i
  by_cases hi : i = a
  · rw [hi, Function.update_self, Bytes.fill, if_pos (by omega)]
  · rw [Function.update_of_ne hi, Bytes.fill, if_neg (by omega)]

theorem copyByte_eq_copy (m : Bytes) (tmp s : Nat) : copyByte tmp s m = m.copy tmp s 1 := by
  funext i
  by_cases hi : i = tmp
  · rw [hi, copyByte, Function.update_self, Bytes.copy, if_pos (by omega), Nat.sub_self]
    rfl
  · rw [copyByte, Function.update_of_ne hi, Bytes.copy, if_neg (by omega)]

theorem setBytes_filled (m : Bytes) (s d i n : Nat) :
    setBytes s d i n (m.fill s (UInt8.ofNat d) i) = m.fill s (UInt8.ofNat d) (i + n) := by
  refine blockLoop_one (fun i => m.fill s (UInt8.ofNat d) i) fun j _ => ?_
  rw [update_eq_fill, Bytes.fill_fill]

/-- The bytes are copied from the first on. -/
theorem copyUp (m : Bytes) (hapart : dst ≤ src ∨ src + (i + n) ≤ dst) :
    (blockLoop 1 (fun i m => copyByte (dst + i) (src + i) m) (m.copy dst src i) i n).1 =
      m.copy dst src (i + n) := by
  refine blockLoop_one (fun i => m.copy dst src i) fun j hj => ?_
  rw [copyByte_eq_copy, Bytes.copy_copy m (by omega)]

/-- The bytes are copied from the last on: `n` of them are left. -/
theorem moveDown_copied (m : Bytes) {done : Nat} (h : src ≤ dst) :
    moveDown (m.copy (dst + n) (src + n) done) (dst + n) (src + n) n =
      m.copy dst src (n + done) := by
  induction n generalizing done with
  | zero => rw [moveDown, Nat.add_zero, Nat.add_zero, Nat.zero_add]
  | succ n ih =>
    have hstep : copyByte (dst + n) (src + n) (m.copy (dst + n + 1) (src + n + 1) done) =
        m.copy (dst + n) (src + n) (done + 1) := by
      rw [copyByte_eq_copy, Bytes.copy_down m (by omega)]
    rw [moveDown, ← Nat.add_assoc, ← Nat.add_assoc, Nat.add_sub_cancel, Nat.add_sub_cancel, hstep, ih]
    congr 1
    omega

end Blocks

/-! ### The routines -/

theorem aligned_iff (x : Nat) : x &&& (LBLOCKSIZE - 1) = 0 ↔ x % 4 = 0 := by
  rw [LBLOCKSIZE, Nat.and_two_pow_sub_one_eq_mod x 2]

theorem UNALIGNED_eq_zero (x y : Nat) : UNALIGNED x y = 0 ↔ x % 4 = 0 ∧ y % 4 = 0 := by
  rw [UNALIGNED, Nat.or_eq_zero_iff]
  exact and_congr (aligned_iff x) (aligned_iff y)

/-- Two word loops in a row, of four words and of one, leave the state `done` of all whole words. -/
theorem words_done (four one : Nat → Bytes → Option Bytes) (done : Nat → Bytes) (n : Nat)
    (hfour : ∀ i, i % 4 = 0 → i + 16 ≤ n → four i (done i) = some (done (i + 16)))
    (hone : ∀ i, i % 4 = 0 → i + 4 ≤ n → one i (done i) = some (done (i + 4))) :
    ∃ i rest, i + rest = n ∧ rest < 4 ∧
      blockLoop 16 (fun i m => m.bind (four i)) (some (done 0)) 0 n =
        (some (done (n / 16 * 16)), n / 16 * 16, n % 16) ∧
      blockLoop 4 (fun i m => m.bind (one i)) (some (done (n / 16 * 16))) (n / 16 * 16) (n % 16) =
        (some (done i), i, rest) := by
  have hsplit := Nat.div_add_mod' n 16
  let state (i : Nat) : Option Bytes := some (done i)
  have hfirst : blockLoop 16 (fun i m => m.bind (four i)) (state 0) 0 n = _ :=
    blockLoop_eq _ (by decide) fun j hj => hfour _ (by omega) (by omega)
  have hsecond : blockLoop 4 (fun i m => m.bind (one i)) (state (n / 16 * 16)) (n / 16 * 16) (n % 16) = _ :=
    blockLoop_eq _ (by decide) fun j hj => hone _ (by omega) (by omega)
  rw [Nat.zero_add] at hfirst
  exact ⟨_, _, by omega, Nat.mod_lt _ (by decide), hfirst, hsecond⟩

theorem rt_memset_fills (m : Bytes) (r : Range) (c : BitVec 32) :
    rt_memset m r.start c r.count = some (m.fill r.start (UInt8.ofNat c.toNat) r.count, r.start) := by
  have hd : c.toNat &&& 0xff < 256 := lt_of_le_of_lt Nat.and_le_right (by decide)
  have hc : UInt8.ofNat (c.toNat &&& 0xff) = UInt8.ofNat c.toNat := by
    apply UInt8.toNat_inj.mp
    rw [UInt8.toNat_ofNat', UInt8.toNat_ofNat', Nat.and_two_pow_sub_one_eq_mod _ 8, Nat.mod_mod]
  have hstart : m.fill r.start (UInt8.ofNat (c.toNat &&& 0xff)) 0 = m := by
    funext i
    rw [Bytes.fill, if_neg (by omega)]
  rw [rt_memset, ← hc]
  by_cases hfast : ¬r.count < LBLOCKSIZE ∧ r.start &&& (LBLOCKSIZE - 1) = 0
  · have halign : r.start % 4 = 0 := (aligned_iff r.start).mp hfast.2
    obtain ⟨i, rest, hsum, -, hfour, hone⟩ := words_done _ _
      (fun i => m.fill r.start (UInt8.ofNat (c.toNat &&& 0xff)) i) r.count
      (fun i hi _ => setFour_filled (m := m) (s := r.start) hd (by omega))
      (fun i hi _ => setWord_filled (m := m) (s := r.start) hd (by omega))
    rw [hstart] at hfour
    rw [if_pos hfast]
    simp only [LBLOCKSIZE, Nat.reduceMul, hfour, hone, Option.bind_eq_bind, Option.bind_some,
      Option.pure_def]
    rw [setBytes_filled, hsum]
  · simp only [if_neg hfast]
    have hbytes := setBytes_filled m r.start (c.toNat &&& 0xff) 0 r.count
    rw [hstart, Nat.zero_add] at hbytes
    rw [hbytes]

theorem copy_zero (m : Bytes) (dst src : Nat) : m.copy dst src 0 = m := by
  funext i
  rw [Bytes.copy, if_neg (by omega)]

theorem copyBytes_copied {m : Bytes} {dst src i n : Nat} (hn : n < 2 ^ 31)
    (hapart : dst ≤ src ∨ src + (i + n) ≤ dst) :
    copyBytes dst src i n (m.copy dst src i) = some (m.copy dst src (i + n)) := by
  rw [copyBytes, if_neg (by omega), copyUp m hapart]

theorem rt_memcpy_copies (m : Bytes) (o : ApartOperands) :
    rt_memcpy m o.dst o.src o.count = some (m.copy o.dst o.src o.count, o.dst) := by
  have hdst := o.dst_fits
  have hsrc := o.src_fits
  have hapart := o.apart
  have hlen : o.count % 2 ^ 32 = o.count := Nat.mod_eq_of_lt (by omega)
  rw [rt_memcpy, hlen]
  by_cases hfast : ¬o.count < BIGBLOCKSIZE ∧ UNALIGNED o.src o.dst = 0
  · obtain ⟨hs, hd⟩ := (UNALIGNED_eq_zero o.src o.dst).mp hfast.2
    obtain ⟨i, rest, hsum, hrest, hfour, hone⟩ := words_done _ _ (m.copy o.dst o.src) o.count
      (fun i hi hin => @copyFour_copied m o.dst o.src i (by omega) (by omega)
        (by omega))
      (fun i hi hin => @copyWord_copied m o.dst o.src i (by omega) (by omega)
        (by omega))
    rw [copy_zero] at hfour
    have hbytes : copyBytes o.dst o.src i rest (m.copy o.dst o.src i) = _ :=
      copyBytes_copied (by omega) (by omega)
    rw [if_pos hfast]
    simp only [BIGBLOCKSIZE, LITTLEBLOCKSIZE, Nat.reduceShiftLeft, hfour, hone, hbytes, hsum,
      Option.bind_eq_bind, Option.bind_some, Option.pure_def]
  · -- ranges of half the address space are aligned, so the count is a positive `int` here
    have hcount : o.count < 2 ^ 31 := by
      by_contra hlarge
      refine hfast ⟨?_, (UNALIGNED_eq_zero o.src o.dst).mpr (by omega)⟩
      rw [BIGBLOCKSIZE]
      omega
    have hbytes : copyBytes o.dst o.src 0 o.count (m.copy o.dst o.src 0) = _ :=
      copyBytes_copied hcount (by omega)
    rw [copy_zero, Nat.zero_add] at hbytes
    rw [if_neg hfast, hbytes]
    rfl

theorem rt_memmove_moves (m : Bytes) (o : Operands) :
    rt_memmove m o.dst o.src o.count = (m.copy o.dst o.src o.count, o.dst) := by
  have hdst := o.dst_fits
  rw [rt_memmove]
  split
  · next hdown =>
    have hmoved : moveDown (m.copy (o.dst + o.count) (o.src + o.count) 0) (o.dst + o.count) _ _ = _ :=
      moveDown_copied m (show o.src ≤ o.dst by omega)
    rw [copy_zero, Nat.add_zero] at hmoved
    rw [hmoved]
  · next hup =>
    have hapart : o.dst ≤ o.src ∨ o.src + (0 + o.count) ≤ o.dst := by
      by_contra hover
      have hend : (o.src + o.count) % 2 ^ 32 = o.src + o.count := Nat.mod_eq_of_lt (by omega)
      exact hup ⟨by omega, by omega⟩
    have hmoved := copyUp m hapart
    rw [copy_zero, Nat.zero_add] at hmoved
    rw [hmoved]

/-- The routines do what the definition by bytes does, to every range, and to nothing else: a byte of
the destination is the byte to set, or the byte that its place in the source had, and every other byte
keeps its value. -/
theorem memory_routines_bytewise (m : Bytes) :
    (∀ (r : Range) (c : BitVec 32),
      rt_memset m r.start c r.count = some (m.fill r.start (UInt8.ofNat c.toNat) r.count, r.start)) ∧
    (∀ o : ApartOperands,
      rt_memcpy m o.dst o.src o.count = some (m.copy o.dst o.src o.count, o.dst)) ∧
    ∀ o : Operands, rt_memmove m o.dst o.src o.count = (m.copy o.dst o.src o.count, o.dst) :=
  ⟨rt_memset_fills m, rt_memcpy_copies m, rt_memmove_moves m⟩

/-! ### The heap's uses -/

/-- `rt_calloc` clears a block with this routine. -/
theorem heap_memset (h : Mem.Heap) (r : Range) (c : BitVec 32) :
    rt_memset h.bytes r.start c r.count =
      some ((Mem.rt_memset h r.start (UInt8.ofNat c.toNat) r.count).bytes, r.start) :=
  rt_memset_fills h.bytes r c

/-- `rt_realloc` copies a block to another one with this routine. -/
theorem heap_memcpy (h : Mem.Heap) (o : ApartOperands) :
    rt_memcpy h.bytes o.dst o.src o.count = some ((Mem.rt_memcpy h o.dst o.src o.count).bytes, o.dst) :=
  rt_memcpy_copies h.bytes o

end Memory

end Ab32Vg1.Kernel
