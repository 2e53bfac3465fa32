import Mathlib.Data.List.GetD
import Mathlib.Data.UInt
import Mathlib.Tactic.Ring

/-! Byte-addressed memory: little-endian words, runs of equal bytes and copies, with the laws that
say what each write leaves readable. -/

namespace Ab32Vg1.ProofKit

/-- The contents of a byte-addressed memory. -/
abbrev Bytes := Nat → UInt8

namespace Bytes

/-- The little-endian word of `w` bytes at address `a`. -/
def load (m : Bytes) : (a w : Nat) → Nat
  | _, 0 => 0
  | a, w + 1 => (m a).toNat + 256 * load m (a + 1) w

/-- The memory after a little-endian store of the low `w` bytes of `v` at address `a`. -/
def store (m : Bytes) : (a w v : Nat) → Bytes
  | _, 0, _ => m
  | a, w + 1, v => fun i => if i = a then UInt8.ofNat v else store m (a + 1) w (v / 256) i

/-- The memory after `n` bytes from `a` on are set to `c`. -/
def fill (m : Bytes) (a : Nat) (c : UInt8) (n : Nat) : Bytes :=
  fun i => if a ≤ i ∧ i < a + n then c else m i

/-- The memory after `n` bytes are copied from `src` to `dst`. -/
def copy (m : Bytes) (dst src n : Nat) : Bytes :=
  fun i => if dst ≤ i ∧ i < dst + n then m (src + (i - dst)) else m i

/-- The memory after `n` bytes of another memory are copied from `s` to `dst`. -/
def blit (m : Bytes) (dst : Nat) (src : Bytes) (s n : Nat) : Bytes :=
  fun i => if dst ≤ i ∧ i < dst + n then src (s + (i - dst)) else m i

/-- The memory after the bytes of a list are written from address `a` on. -/
def put (m : Bytes) (a : Nat) (bytes : List UInt8) : Bytes :=
  fun i => if a ≤ i ∧ i < a + bytes.length then bytes.getD (i - a) 0 else m i

/-- The `n` bytes from address `a` on. -/
def range (m : Bytes) (a n : Nat) : List UInt8 := (List.range n).map fun i => m (a + i)

/-- `m'` agrees with `m` on the addresses from `lo` up to `hi`. -/
def AgreeOn (m m' : Bytes) (lo hi : Nat) : Prop := ∀ i, lo ≤ i → i < hi → m' i = m i

theorem AgreeOn.mono {m m' : Bytes} {lo hi lo' hi' : Nat} (h : AgreeOn m m' lo hi)
    (hlo : lo ≤ lo') (hhi : hi' ≤ hi) : AgreeOn m m' lo' hi' :=
  fun i h1 h2 => h i (by omega) (by omega)

theorem AgreeOn.trans {m m1 m2 : Bytes} {lo hi : Nat} (h1 : AgreeOn m m1 lo hi)
    (h2 : AgreeOn m1 m2 lo hi) : AgreeOn m m2 lo hi :=
  fun i hlo hhi => (h2 i hlo hhi).trans (h1 i hlo hhi)

theorem load_congr {m m' : Bytes} {a w : Nat} (h : AgreeOn m m' a (a + w)) :
    load m' a w = load m a w := by
  induction w generalizing a with
  | zero => rfl
  | succ w ih =>
    simp only [load]
    rw [h a (by omega) (by omega), ih (h.mono (by omega) (by omega))]

theorem store_outside {m : Bytes} {a w v i : Nat} (h : i < a ∨ a + w ≤ i) :
    store m a w v i = m i := by
  induction w generalizing a v with
  | zero => rfl
  | succ w ih =>
    simp only [store]
    rw [if_neg (by omega), ih (by omega)]

theorem store_agreeOn {m : Bytes} {a w v lo hi : Nat} (h : hi ≤ a ∨ a + w ≤ lo) :
    AgreeOn m (store m a w v) lo hi :=
  fun _ h1 h2 => store_outside (by omega)

theorem fill_agreeOn {m : Bytes} {a n lo hi : Nat} {c : UInt8} (h : hi ≤ a ∨ a + n ≤ lo) :
    AgreeOn m (fill m a c n) lo hi := by
  intro i h1 h2
  simp only [fill]
  rw [if_neg (by omega)]

theorem copy_agreeOn {m : Bytes} {dst src n lo hi : Nat} (h : hi ≤ dst ∨ dst + n ≤ lo) :
    AgreeOn m (copy m dst src n) lo hi := by
  intro i h1 h2
  simp only [copy]
  rw [if_neg (by omega)]

/-- A load sees nothing of a store to other addresses. -/
theorem load_store_of_disjoint {m : Bytes} {a w v b w' : Nat} (h : b + w' ≤ a ∨ a + w ≤ b) :
    load (store m a w v) b w' = load m b w' :=
  load_congr (store_agreeOn h)

/-- A load of the word just stored. -/
theorem load_store_self (m : Bytes) (a w v : Nat) : load (store m a w v) a w = v % 256 ^ w := by
  induction w generalizing a v with
  | zero => simp [load, Nat.mod_one]
  | succ w ih =>
    have htail : load (store m a (w + 1) v) (a + 1) w = load (store m (a + 1) w (v / 256)) (a + 1) w :=
      load_congr fun i h1 _ => by simp only [store]; rw [if_neg (by omega)]
    have hpow : 256 ^ (w + 1) = 256 * 256 ^ w := by rw [pow_succ, mul_comm]
    simp only [load, htail, ih]
    simp only [store, if_true, UInt8.toNat_ofNat']
    rw [hpow, Nat.mod_mul]

theorem load_store_of_lt {m : Bytes} {a w v : Nat} (h : v < 256 ^ w) :
    load (store m a w v) a w = v := by
  rw [load_store_self, Nat.mod_eq_of_lt h]

theorem load_lt (m : Bytes) (a w : Nat) : load m a w < 256 ^ w := by
  induction w generalizing a with
  | zero => simp [load]
  | succ w ih =>
    have hb := (m a).toNat_lt
    have ht := ih (a + 1)
    simp only [load, pow_succ]
    omega

variable {m m' src : Bytes} {a n k : Nat}

@[simp] theorem length_range : (range m a n).length = n := by
  simp [range]

theorem getElem?_range {i : Nat} (hi : i < n) : (range m a n)[i]? = some (m (a + i)) := by
  simp [range, hi]

theorem range_zero : range m a 0 = [] := rfl

theorem range_congr (h : AgreeOn m m' a (a + n)) : range m' a n = range m a n := by
  apply List.map_congr_left
  intro i hi
  have hlt := List.mem_range.mp hi
  exact h (a + i) (by omega) (by omega)

theorem range_add : range m a (n + k) = range m a n ++ range m (a + n) k := by
  simp only [range, List.range_add, List.map_append, List.map_map]
  congr 1
  apply List.map_congr_left
  intro i _
  simp [Nat.add_assoc]

theorem range_split (h : k ≤ n) : range m a n = range m a k ++ range m (a + k) (n - k) := by
  rw [← range_add, Nat.add_sub_cancel' h]

theorem drop_range (h : k ≤ n) : (range m a n).drop k = range m (a + k) (n - k) := by
  rw [range_split h, List.drop_left' length_range]

theorem take_range (h : k ≤ n) : (range m a n).take k = range m a k := by
  rw [range_split h, List.take_left' length_range]

theorem range_fill (c : UInt8) : range (fill m a c n) a n = List.replicate n c := by
  apply List.ext_getElem
  · simp
  · intro i h1 h2
    rw [length_range] at h1
    simp [range, fill, h1]

theorem range_blit (s : Nat) : range (blit m a src s n) a n = range src s n := by
  apply List.map_congr_left
  intro i hi
  have hlt := List.mem_range.mp hi
  simp only [blit]
  rw [if_pos (by omega), Nat.add_sub_cancel_left]

theorem put_agreeOn {bytes : List UInt8} {lo hi : Nat} (h : hi ≤ a ∨ a + bytes.length ≤ lo) :
    AgreeOn m (put m a bytes) lo hi := by
  intro i h1 h2
  simp only [put]
  rw [if_neg (by omega)]

theorem range_put (m : Bytes) (a : Nat) (bytes : List UInt8) :
    range (put m a bytes) a bytes.length = bytes := by
  apply List.ext_getElem
  · simp
  · intro i h1 h2
    simp [range, put, h2]

/-- Bytes written behind others. -/
theorem put_put (m : Bytes) (a : Nat) (xs ys : List UInt8) :
    (m.put a xs).put (a + xs.length) ys = m.put a (xs ++ ys) := by
  funext i
  simp only [put, List.length_append]
  by_cases hnew : a + xs.length ≤ i ∧ i < a + xs.length + ys.length
  · rw [if_pos hnew, if_pos (by omega), List.getD_append_right _ _ _ _ (by omega)]
    congr 1
    omega
  · rw [if_neg hnew]
    by_cases hold : a ≤ i ∧ i < a + xs.length
    · rw [if_pos hold, if_pos (by omega), List.getD_append _ _ _ _ (by omega)]
    · rw [if_neg hold, if_neg (by omega)]

theorem blit_agreeOn {dst s lo hi : Nat} (h : hi ≤ dst ∨ dst + n ≤ lo) :
    AgreeOn m (blit m dst src s n) lo hi := by
  intro i h1 h2
  simp only [blit]
  rw [if_neg (by omega)]

theorem range_blit_append (m src : Bytes) (a n s k : Nat) :
    range (blit m (a + n) src s k) a (n + k) = range m a n ++ range src s k := by
  rw [range_add, range_blit, range_congr (blit_agreeOn (Or.inl le_rfl))]

/-- Copying after the first bytes of a cleared range extends them. -/
theorem range_blit_after {bytes : List UInt8} {c : UInt8} (src : Bytes) (s : Nat)
    (h : range m a n = bytes ++ List.replicate (n - bytes.length) c) (hk : bytes.length + k ≤ n) :
    range (blit m (a + bytes.length) src s k) a n =
      bytes ++ range src s k ++ List.replicate (n - (bytes.length + k)) c := by
  obtain ⟨rest, rfl⟩ : ∃ rest, n = bytes.length + k + rest := ⟨n - (bytes.length + k), by omega⟩
  rw [show bytes.length + k + rest - bytes.length = k + rest by omega, range_add, range_add,
    List.append_assoc, ← List.replicate_append_replicate] at h
  obtain ⟨hbytes, hzeros⟩ := List.append_inj h length_range
  obtain ⟨-, hrest⟩ := List.append_inj hzeros (by simp)
  rw [range_add, range_add, range_blit, Nat.add_sub_cancel_left,
    range_congr (m := m) (blit_agreeOn (by omega)), hbytes,
    range_congr (m := m) (blit_agreeOn (by omega)), hrest]

/-! ### Runs that grow -/

/-- A filled run is filled further. -/
theorem fill_fill (m : Bytes) (a n k : Nat) (c : UInt8) :
    (m.fill a c n).fill (a + n) c k = m.fill a c (n + k) := by
  funext i
  simp only [fill]
  by_cases hnew : a + n ≤ i ∧ i < a + n + k
  · rw [if_pos hnew, if_pos (by omega)]
  · rw [if_neg hnew]
    by_cases hold : a ≤ i ∧ i < a + n
    · rw [if_pos hold, if_pos (by omega)]
    · rw [if_neg hold, if_neg (by omega)]

/-- A copied run is copied further, when the copy has not run into its source. -/
theorem copy_copy (m : Bytes) {dst src n k : Nat} (h : dst ≤ src ∨ src + (n + k) ≤ dst) :
    (m.copy dst src n).copy (dst + n) (src + n) k = m.copy dst src (n + k) := by
  funext i
  simp only [copy]
  by_cases hnew : dst + n ≤ i ∧ i < dst + n + k
  · rw [if_pos hnew, if_neg (by omega), if_pos (by omega)]
    congr 1
    omega
  · rw [if_neg hnew]
    by_cases hold : dst ≤ i ∧ i < dst + n
    · rw [if_pos hold, if_pos (by omega)]
    · rw [if_neg hold, if_neg (by omega)]

/-- A copied run grows downwards, when its source lies below it. -/
theorem copy_down (m : Bytes) {dst src n : Nat} (h : src ≤ dst) :
    (m.copy (dst + 1) (src + 1) n).copy dst src 1 = m.copy dst src (n + 1) := by
  funext i
  simp only [copy]
  by_cases hnew : dst ≤ i ∧ i < dst + 1
  · rw [if_pos hnew, if_neg (by omega), if_pos (by omega)]
  · rw [if_neg hnew]
    by_cases hold : dst + 1 ≤ i ∧ i < dst + 1 + n
    · rw [if_pos hold, if_pos (by omega)]
      congr 1
      omega
    · rw [if_neg hold, if_neg (by omega)]

/-- A word loaded from one place and stored at another is a copy of its bytes. -/
theorem store_load (m src : Bytes) (a s w : Nat) :
    store m a w (load src s w) = blit m a src s w := by
  induction w generalizing a s with
  | zero =>
    funext i
    simp only [store, blit]
    rw [if_neg (by omega)]
  | succ w ih =>
    have hb := (src s).toNat_lt
    have hrest : ((src s).toNat + 256 * load src (s + 1) w) / 256 = load src (s + 1) w := by omega
    funext i
    simp only [store, load, hrest, ih, blit]
    by_cases hi : i = a
    · rw [if_pos hi, if_pos (by omega), hi, Nat.sub_self]
      show UInt8.ofNat _ = src s
      apply UInt8.toNat_inj.mp
      rw [UInt8.toNat_ofNat']
      omega
    · rw [if_neg hi]
      by_cases hin : a + 1 ≤ i ∧ i < a + 1 + w
      · rw [if_pos hin, if_pos (by omega)]
        congr 1
        omega
      · rw [if_neg hin, if_neg (by omega)]

/-- A word of equal bytes is stored. -/
theorem store_repeat (m : Bytes) (a w v : Nat) (c : UInt8)
    (h : ∀ j < w, v / 256 ^ j % 256 = c.toNat) : store m a w v = m.fill a c w := by
  induction w generalizing a v with
  | zero =>
    funext i
    simp only [store, fill]
    rw [if_neg (by omega)]
  | succ w ih =>
    have hlow : UInt8.ofNat v = c := by
      have h0 := h 0 (by omega)
      rw [pow_zero, Nat.div_one] at h0
      exact UInt8.toNat_inj.mp (by rw [UInt8.toNat_ofNat', h0])
    have hrest := ih (a + 1) (v / 256) fun j hj => by
      rw [Nat.div_div_eq_div_mul, ← pow_succ']
      exact h (j + 1) (by omega)
    funext i
    simp only [store, hrest, hlow, fill]
    by_cases hi : i = a
    · rw [if_pos hi, if_pos (by omega)]
    · rw [if_neg hi]
      by_cases hin : a + 1 ≤ i ∧ i < a + 1 + w
      · rw [if_pos hin, if_pos (by omega)]
      · rw [if_neg hin, if_neg (by omega)]

end Bytes

end Ab32Vg1.ProofKit
