import Ab32Vg1.Kernel.Mempool
import Ab32Vg1.Kernel.MemBlocks

/-! Runs of the memory pool: the blocks are free or held, and no thread waits while a block is free and
nobody is on the way to it. -/

namespace Ab32Vg1.Kernel

open ProofKit Rtos

/-! ### The waiting threads -/

/-- The threads that wait for a pool: those in its list have no error, a timer runs for no other one, and
every free block is on the way to a resumed thread while a thread is in the list. -/
structure MpWaits (os : Rtos) (l : Nat) (waiting : Tid → Option (Int × Nat)) (free : Nat) : Prop where
  inv : Inv os
  listed : ∀ t ∈ os.suspend_thread l, (waiting t).isSome ∧ (os.threads t).error = RT_EOK
  timer : ∀ t, (waiting t).isSome → (os.threads t).thread_timer.activated = true →
    t ∈ os.suspend_thread l
  due : ∃ resumed : List Tid, resumed.Nodup ∧
    (∀ t, t ∈ resumed ↔ (waiting t).isSome ∧ t ∉ os.suspend_thread l ∧ (os.threads t).error = RT_EOK) ∧
    (os.suspend_thread l ≠ [] → free ≤ resumed.length)

namespace MpWaits

variable {os os' : Rtos} {l free free' : Nat} {waiting : Tid → Option (Int × Nat)} {t : Tid}

theorem mono (h : MpWaits os l waiting free) (hle : free' ≤ free) : MpWaits os l waiting free' := by
  obtain ⟨resumed, hnd, hmem, hdue⟩ := h.due
  exact ⟨h.inv, h.listed, h.timer, resumed, hnd, hmem, fun hne => hle.trans (hdue hne)⟩

theorem elsewhere (h : MpWaits os l waiting free)
    (he : Elsewhere (· = l) (fun t => (waiting t).isSome) os os') : MpWaits os' l waiting free := by
  have hlist : os'.suspend_thread l = os.suspend_thread l := he.suspend _ rfl
  refine ⟨he.inv, fun t ht => ?_, fun t ht hact => ?_, ?_⟩
  · obtain ⟨h1, h2⟩ := h.listed t (hlist ▸ ht)
    exact ⟨h1, (he.kept t h1).error.trans h2⟩
  · rw [hlist]
    exact h.timer t ht ((he.kept t ht).timer hact)
  · obtain ⟨resumed, hnd, hmem, hdue⟩ := h.due
    refine ⟨resumed, hnd, fun t => (hmem t).trans ?_, by rwa [hlist]⟩
    refine and_congr_right fun ht => ?_
    rw [(he.kept t ht).error, hlist]

/-- The running thread begins to wait, or waits again. -/
theorem begins {wait : Int × Nat} (h : MpWaits os l waiting 0) (hw : Waits os os' l t)
    (hnot : t ∉ os.suspend_thread l) :
    MpWaits os' l (fun u => if some t = some u then some wait else waiting u) 0 := by
  have hmem : ∀ u, u ∈ os'.suspend_thread l ↔ u ∈ os.suspend_thread l ∨ u = t := by
    intro u
    rw [hw.mem]
    simp
  refine ⟨hw.inv, fun u hu => ?_, fun u hu hact => ?_, ?_⟩
  · by_cases hut : u = t
    · subst hut
      exact ⟨by simp, hw.error⟩
    · obtain ⟨h1, h2⟩ := h.listed u (((hmem u).mp hu).resolve_right hut)
      exact ⟨by simpa [Ne.symm hut] using h1, by rw [hw.other u hut]; exact h2⟩
  · refine (hmem u).mpr ?_
    by_cases hut : u = t
    · exact Or.inr hut
    · rw [hw.other u hut] at hact
      exact Or.inl (h.timer u (by simpa [Ne.symm hut] using hu) hact)
  · obtain ⟨resumed, hnd, hres, -⟩ := h.due
    refine ⟨resumed.erase t, hnd.erase t, fun u => ?_, fun _ => Nat.zero_le _⟩
    rw [hnd.mem_erase_iff, hres, hmem]
    by_cases hut : u = t
    · simp [hut]
    · simp [hut, Ne.symm hut, hw.other u hut]

/-- The running thread returns. -/
theorem returns (h : MpWaits os l waiting free) (hnot : t ∉ os.suspend_thread l)
    (hfree : (os.threads t).error = RT_EOK → free' ≤ free - 1) (hle : free' ≤ free) :
    MpWaits os l (fun u => if some t = some u then none else waiting u) free' := by
  refine ⟨h.inv, fun u hu => ?_, fun u hu hact => ?_, ?_⟩
  · have hut : t ≠ u := fun heq => hnot (heq ▸ hu)
    simpa [hut] using h.listed u hu
  · by_cases hut : t = u
    · simp [hut] at hu
    · exact h.timer u (by simpa [hut] using hu) hact
  · obtain ⟨resumed, hnd, hres, hdue⟩ := h.due
    refine ⟨resumed.erase t, hnd.erase t, fun u => ?_, fun hne => ?_⟩
    · rw [hnd.mem_erase_iff, hres]
      by_cases hut : u = t
      · simp [hut]
      · simp [hut, Ne.symm hut]
    · have hbound := hdue hne
      by_cases hmem : t ∈ resumed
      · have herr := ((hres t).mp hmem).2.2
        have := hfree herr
        rw [List.length_erase_of_mem hmem]
        omega
      · rw [List.erase_of_not_mem hmem]
        omega

/-- A block is freed: the first thread of the list is resumed. -/
theorem wakes {rest : List Tid} (h : MpWaits os l waiting free)
    (hl : os.suspend_thread l = t :: rest) (hw : Woken os os' l t) :
    MpWaits os' l waiting (free + 1) := by
  have htail : os'.suspend_thread l = rest := by
    rw [hw.suspend, if_pos rfl, hl, List.tail_cons]
  have hmem : ∀ u, u ∈ os.suspend_thread l ↔ u = t ∨ u ∈ rest := by
    intro u
    rw [hl, List.mem_cons]
  have htrest : t ∉ rest := by
    have hnodup := h.inv.suspend_nodup l
    rw [hl] at hnodup
    exact (List.nodup_cons.mp hnodup).1
  obtain ⟨htwait, hterr⟩ := h.listed t ((hmem t).mpr (Or.inl rfl))
  obtain ⟨resumed, hnd, hres, hdue⟩ := h.due
  refine ⟨hw.inv, fun u hu => ?_, fun u hu hact => ?_, t :: resumed,
    List.nodup_cons.mpr ⟨fun ht => ?_, hnd⟩, fun u => ?_, fun _ => ?_⟩
  · rw [htail] at hu
    obtain ⟨h1, h2⟩ := h.listed u ((hmem u).mpr (Or.inr hu))
    exact ⟨h1, (hw.kept u).error.trans h2⟩
  · rw [htail]
    have hut : u ≠ t := by
      rintro rfl
      rw [hw.timer] at hact
      cases hact
    exact ((hmem u).mp (h.timer u hu ((hw.kept u).timer hact))).resolve_left hut
  · exact ((hres t).mp ht).2.1 ((hmem t).mpr (Or.inl rfl))
  · rw [List.mem_cons, hres, (hw.kept u).error, hmem, htail]
    by_cases hut : u = t
    · subst hut
      simp [htwait, hterr, htrest]
    · simp [hut]
  · have := hdue (by simp [hl])
    rw [List.length_cons]
    omega

/-- A thread that is timed out leaves the list. -/
theorem expires (h : MpWaits os l waiting free) (hin : t ∈ os.suspend_thread l)
    (hto : TimedOut os os' t) : MpWaits os' l waiting free := by
  have hmem : ∀ u, u ∈ os'.suspend_thread l ↔ u ∈ os.suspend_thread l ∧ u ≠ t := by
    intro u
    rw [hto.suspend, List.mem_filter]
    simp
  refine ⟨hto.inv, fun u hu => ?_, fun u hu hact => ?_, ?_⟩
  · obtain ⟨hu, hut⟩ := (hmem u).mp hu
    obtain ⟨h1, h2⟩ := h.listed u hu
    exact ⟨h1, (hto.other u hut).error.trans h2⟩
  · have hut : u ≠ t := by
      rintro rfl
      rw [hto.timer] at hact
      cases hact
    exact (hmem u).mpr ⟨h.timer u hu ((hto.other u hut).timer hact), hut⟩
  · obtain ⟨resumed, hnd, hres, hdue⟩ := h.due
    refine ⟨resumed, hnd, fun u => (hres u).trans ?_, fun _ => hdue (List.ne_nil_of_mem hin)⟩
    by_cases hut : u = t
    · subst hut
      have herr : (os'.threads u).error ≠ RT_EOK := by
        rw [hto.error]
        decide
      exact iff_of_false (fun hr => hr.2.1 hin) fun hr => herr hr.2.2
    · have hin' : u ∈ os'.suspend_thread l ↔ u ∈ os.suspend_thread l := by
        rw [hmem]
        simp [hut]
      rw [hin', (hto.other u hut).error]

/-- The caller of `rt_mp_alloc` leaves it, with a block if one was on the way to it. -/
theorem leave {caller : Option Tid} (h : MpWaits os l waiting free)
    (hcaller : ∀ t, caller = some t → t ∉ os.suspend_thread l)
    (hfree : ∀ t, caller = some t → (os.threads t).error = RT_EOK → free' ≤ free - 1)
    (hle : free' ≤ free) :
    MpWaits os l (fun t => if caller = some t then none else waiting t) free' := by
  cases caller with
  | none => exact h.mono hle
  | some t => exact h.returns (hcaller t rfl) (hfree t rfl) hle

end MpWaits

/-! ### The blocks -/

/-- A link that is not the null pointer. -/
def link (v : Nat) : Option Nat := if v = 0 then none else some v

/-- The blocks of a pool. -/
def blocks (start stride n : Nat) : List Nat := (List.range n).map fun i => start + i * stride

/-- The free list leads through the free blocks, the others are held and name their pool. -/
structure MpBlocks (mp : MemPool) (words : Words) (held fl : List Nat) : Prop where
  linked : Linked (fun a => link (words a)) (link mp.block_list) fl
  count : fl.length = mp.block_free_count
  all : (fl ++ held.map (· - 4)).Perm
    (blocks mp.start_address (mp.block_size + 4) mp.block_total_count)
  owner : ∀ p ∈ held, words (p - 4) = mp.address

/-- The blocks are in the memory from `start` on, which does not wrap. -/
structure MpRoom (mp : MemPool) (size : Nat) : Prop where
  start : 0 < mp.start_address
  block : 0 < mp.block_size
  fits : mp.start_address + mp.block_total_count * (mp.block_size + 4) ≤ mp.start_address + size
  wraps : mp.start_address + size ≤ 2 ^ 32

section

variable {mp : MemPool} {words words' : Words} {held fl : List Nat} {size a p : Nat}

theorem mem_blocks {start stride n : Nat} :
    a ∈ blocks start stride n ↔ ∃ i < n, start + i * stride = a := by
  simp [blocks]

theorem blocks_nodup {start stride n : Nat} (hs : 0 < stride) : (blocks start stride n).Nodup := by
  refine List.Nodup.map (fun i j h => ?_) List.nodup_range
  exact Nat.eq_of_mul_eq_mul_right hs (Nat.add_left_cancel h)

/-- A block is inside the memory. -/
theorem MpRoom.inside (h : MpRoom mp size)
    (ha : a ∈ blocks mp.start_address (mp.block_size + 4) mp.block_total_count) :
    mp.start_address ≤ a ∧ a + (mp.block_size + 4) ≤ mp.start_address + size := by
  obtain ⟨i, hi, rfl⟩ := mem_blocks.mp ha
  have hle := Nat.mul_le_mul_right (mp.block_size + 4) hi
  have hfits := h.fits
  rw [Nat.succ_mul] at hle
  omega

/-- Two blocks do not overlap. -/
theorem blocks_apart {start stride n b : Nat} (ha : a ∈ blocks start stride n)
    (hb : b ∈ blocks start stride n) : a = b ∨ a + stride ≤ b ∨ b + stride ≤ a := by
  obtain ⟨i, -, rfl⟩ := mem_blocks.mp ha
  obtain ⟨j, -, rfl⟩ := mem_blocks.mp hb
  rcases Nat.lt_trichotomy i j with hlt | rfl | hlt
  · have hle := Nat.mul_le_mul_right stride hlt
    rw [Nat.succ_mul] at hle
    omega
  · exact Or.inl rfl
  · have hle := Nat.mul_le_mul_right stride hlt
    rw [Nat.succ_mul] at hle
    omega

theorem link_set (words : Words) (a v : Nat) :
    (fun b => link (words.set a v b)) = Function.update (fun b => link (words b)) a (link v) := by
  funext b
  by_cases hb : b = a
  · rw [hb, Function.update_self, Words.set_self]
  · rw [Function.update_of_ne hb, Words.set_ne hb]

namespace MpBlocks

theorem mem_all (h : MpBlocks mp words held fl) (ha : a ∈ fl ∨ a ∈ held.map (· - 4)) :
    a ∈ blocks mp.start_address (mp.block_size + 4) mp.block_total_count :=
  h.all.subset (List.mem_append.mpr ha)

theorem nodup (h : MpBlocks mp words held fl) : (fl ++ held.map (· - 4)).Nodup :=
  h.all.nodup_iff.mpr (blocks_nodup (by omega))

/-- What is handed out lies behind the first word of a block. -/
theorem held_block (h : MpBlocks mp words held fl) (hroom : MpRoom mp size) (hp : p ∈ held) :
    p - 4 ∈ blocks mp.start_address (mp.block_size + 4) mp.block_total_count ∧ p - 4 + 4 = p := by
  have hmem := h.mem_all (Or.inr (List.mem_map_of_mem hp))
  have hge := (hroom.inside hmem).1
  have hstart := hroom.start
  exact ⟨hmem, by omega⟩

theorem counted (h : MpBlocks mp words held fl) :
    mp.block_total_count = mp.block_free_count + held.length := by
  have hlen := h.all.length_eq
  simpa [blocks, h.count] using hlen.symm

/-- The first free block is handed out. -/
theorem alloc (h : MpBlocks mp words held fl) (hroom : MpRoom mp size)
    (hfree : mp.block_free_count ≠ 0) :
    mp.block_list ≠ 0 ∧ ∃ fl', MpBlocks { mp with
      block_free_count := mp.block_free_count - 1
      block_list := words mp.block_list } (words.set mp.block_list mp.address)
      (add32 mp.block_list 4 :: held) fl' := by
  have hcount := h.count
  have hnd := h.nodup
  cases fl with
  | nil => exact absurd hcount.symm hfree
  | cons b fl =>
    have hb : link mp.block_list = some b := h.linked.1
    have hne : mp.block_list ≠ 0 := by
      intro h0
      rw [h0] at hb
      cases hb
    obtain rfl : mp.block_list = b := by simpa [link, hne] using hb
    have hblock := hroom.inside (h.mem_all (Or.inl List.mem_cons_self))
    have hadd : add32 mp.block_list 4 = mp.block_list + 4 := by
      have := hroom.wraps
      have := hroom.block
      rw [add32, Nat.mod_eq_of_lt (by omega)]
    rw [List.cons_append, List.nodup_cons, List.mem_append, not_or] at hnd
    refine ⟨hne, fl, ?_, ?_, ?_, ?_⟩
    · rw [link_set]
      exact h.linked.tail.update_of_not_mem hnd.1.1
    · rw [List.length_cons] at hcount
      show fl.length = mp.block_free_count - 1
      omega
    · rw [hadd, List.map_cons, Nat.add_sub_cancel]
      exact List.perm_middle.trans h.all
    · intro q hq
      rcases List.mem_cons.mp hq with rfl | hq
      · rw [hadd, Nat.add_sub_cancel, Words.set_self]
      · have hqa : q - 4 ≠ mp.block_list := fun heq =>
          hnd.1.2 (heq ▸ List.mem_map_of_mem hq)
        rw [Words.set_ne hqa]
        exact h.owner q hq

/-- A held block becomes the first free one. -/
theorem free (h : MpBlocks mp words held fl) (hroom : MpRoom mp size) (hp : p ∈ held) :
    sub32 p 4 = p - 4 ∧ MpBlocks { mp with
      block_free_count := mp.block_free_count + 1
      block_list := p - 4 } (words.set (p - 4) mp.block_list) (held.erase p) ((p - 4) :: fl) := by
  obtain ⟨hblock, hpos⟩ := h.held_block hroom hp
  have hin := hroom.inside hblock
  have hstart := hroom.start
  have hwraps := hroom.wraps
  have hperm : ((p - 4) :: (fl ++ (held.erase p).map (· - 4))).Perm (fl ++ held.map (· - 4)) :=
    List.perm_middle.symm.trans (((List.perm_cons_erase hp).symm.map (· - 4)).append_left fl)
  have hnd : ((p - 4) :: (fl ++ (held.erase p).map (· - 4))).Nodup := hperm.nodup_iff.mpr h.nodup
  rw [List.nodup_cons, List.mem_append, not_or] at hnd
  have hlink : link (p - 4) = some (p - 4) := if_neg (by omega)
  refine ⟨?_, ?_, ?_, ?_, ?_⟩
  · rw [sub32]
    omega
  · rw [link_set, hlink]
    exact h.linked.push hnd.1.1
  · simp [h.count]
  · exact hperm.trans h.all
  · intro q hq
    have hqp : q - 4 ≠ p - 4 := fun heq => hnd.1.2 (heq ▸ List.mem_map_of_mem hq)
    rw [Words.set_ne hqp]
    exact h.owner q (List.mem_of_mem_erase hq)

/-- Writes to the held blocks leave the first words of the blocks alone. -/
theorem store (h : MpBlocks mp words held fl) (hroom : MpRoom mp size)
    (hw : ∀ a, words' a ≠ words a → ∃ p ∈ held, p ≤ a ∧ a < p + mp.block_size) :
    MpBlocks mp words' held fl := by
  have hkeep : ∀ a ∈ blocks mp.start_address (mp.block_size + 4) mp.block_total_count,
      words' a = words a := by
    intro a ha
    by_contra hne
    obtain ⟨p, hp, hlo, hhi⟩ := hw a hne
    obtain ⟨hblock, hpos⟩ := h.held_block hroom hp
    rcases blocks_apart ha hblock with heq | hlt | hlt <;> omega
  refine ⟨h.linked.congr fun a ha => ?_, h.count, h.all, fun p hp => ?_⟩
  · rw [hkeep a (h.mem_all (Or.inl ha))]
  · rw [hkeep _ (h.held_block hroom hp).1]
    exact h.owner p hp

end MpBlocks

end

/-! ### Initialisation -/

section

variable {start stride n : Nat}

/-- The links after the stores of the loop. -/
theorem foldl_links (words : Words) (f g : Nat → Nat) (hf : ∀ i j, i < n → j < n → f i = f j → i = j) :
    ∀ i < n, (((List.range n).map fun i => (f i, g i)).foldl (fun m store => m.set store.1 store.2)
      words) (f i) = g i := by
  induction n with
  | zero => intro i hi; omega
  | succ n ih =>
    intro i hi
    rw [List.range_succ, List.map_append, List.foldl_append, List.map_singleton, List.foldl_cons,
      List.foldl_nil]
    by_cases hin : i = n
    · subst hin
      rw [Words.set_self]
    · rw [Words.set_ne fun heq => hin (hf i n hi (by omega) heq)]
      exact ih (fun i j hi hj => hf i j (by omega) (by omega)) i (by omega)

/-- Links from each block to the next one, from number `i` on. -/
theorem linked_blocks (next : Nat → Option Nat) (hn : ∀ i < n, next (start + i * stride) =
    if i + 1 = n then none else some (start + (i + 1) * stride)) {i k : Nat} (hk : i + k = n) :
    Linked next (if k = 0 then none else some (start + i * stride))
      ((List.range' i k).map fun i => start + i * stride) := by
  induction k generalizing i with
  | zero => rfl
  | succ k ih =>
    rw [List.range'_succ, List.map_cons, if_neg (by omega)]
    refine ⟨rfl, ?_⟩
    rw [hn i (by omega)]
    have hrest := @ih (i + 1) (by omega)
    by_cases hlast : k = 0
    · rw [if_pos hlast] at hrest
      rwa [if_pos (by omega)]
    · rw [if_neg hlast] at hrest
      rwa [if_neg (by omega)]

end

/-- The pool has room for one block: its word and the aligned size. -/
def Roomy (size block_size : Nat) : Prop := (block_size + 7) / 8 * 8 + 4 ≤ size / 8 * 8

/-- The arguments that `rt_mp_init` accepts, for memory that exists. -/
structure Accepted (start size block_size : Nat) : Prop where
  start_pos : 0 < start
  wraps : start + size ≤ 2 ^ 32
  size_pos : 0 < size
  block_pos : 0 < block_size
  block_word : block_size < 2 ^ 32

/-- The pool that an initialisation sets up. -/
def initialPool (mp suspend_thread start size block_size : Nat) : MemPool :=
  let total := RT_ALIGN_DOWN size 8 / add32 (RT_ALIGN block_size 8) 4
  ⟨mp, start, RT_ALIGN_DOWN size 8, RT_ALIGN block_size 8, start, total, total, suspend_thread⟩

section

variable {mp l start size block_size : Nat}

theorem rt_mp_init_eq (h : Accepted start size block_size) :
    MemPool.rt_mp_init mp l start size block_size =
      some (initialPool mp l start size block_size, MemPool.linkStores start (RT_ALIGN block_size 8)
        (initialPool mp l start size block_size).block_total_count) := by
  unfold MemPool.rt_mp_init
  rw [RT_ASSERT_true (Nat.ne_of_gt h.start_pos), RT_ASSERT_true ⟨h.size_pos, h.block_pos⟩]
  rfl

/-- The sizes of a pool with room do not wrap. -/
theorem Roomy.sizes (hroom : Roomy size block_size) (h : Accepted start size block_size) :
    RT_ALIGN_DOWN size 8 = size / 8 * 8 ∧ RT_ALIGN block_size 8 = (block_size + 7) / 8 * 8 ∧
      add32 (RT_ALIGN block_size 8) 4 = RT_ALIGN block_size 8 + 4 := by
  have hwraps := h.wraps
  have hstart := h.start_pos
  unfold Roomy at hroom
  have hbs := @RT_ALIGN_eight block_size (by omega)
  refine ⟨RT_ALIGN_DOWN_eight (by omega), hbs, add32_of_lt ?_⟩
  rw [hbs]
  omega

theorem initial_room (hroom : Roomy size block_size) (h : Accepted start size block_size) :
    MpRoom (initialPool mp l start size block_size) size := by
  obtain ⟨hsize, hbs, hstride⟩ := hroom.sizes h
  have hpos := h.block_pos
  refine ⟨h.start_pos, ?_, ?_, h.wraps⟩
  · show 0 < RT_ALIGN block_size 8
    omega
  · show start + RT_ALIGN_DOWN size 8 / add32 (RT_ALIGN block_size 8) 4 * (RT_ALIGN block_size 8 + 4) ≤
      start + size
    rw [hstride]
    have := Nat.div_mul_le_self (RT_ALIGN_DOWN size 8) (RT_ALIGN block_size 8 + 4)
    omega

theorem initial_total_pos (hroom : Roomy size block_size) (h : Accepted start size block_size) :
    0 < (initialPool mp l start size block_size).block_total_count := by
  obtain ⟨hsize, hbs, hstride⟩ := hroom.sizes h
  unfold Roomy at hroom
  show 0 < RT_ALIGN_DOWN size 8 / add32 (RT_ALIGN block_size 8) 4
  rw [hstride]
  exact Nat.div_pos (by omega) (by omega)

/-- The blocks of a pool with room are where the initialisation links them. -/
theorem blockAt_eq (hroom : Roomy size block_size) (h : Accepted start size block_size) {i : Nat}
    (hi : i < (initialPool mp l start size block_size).block_total_count) :
    MemPool.blockAt start (RT_ALIGN block_size 8) i = start + i * (RT_ALIGN block_size 8 + 4) := by
  obtain ⟨-, -, hstride⟩ := hroom.sizes h
  have hr := @initial_room mp l start size block_size hroom h
  have hin := hr.inside (mem_blocks.mpr ⟨i, hi, rfl⟩)
  have hwraps := h.wraps
  have hstart := h.start_pos
  dsimp only [initialPool] at hin
  have hblock : i * (RT_ALIGN block_size 8 + 4) < 2 ^ 32 := by omega
  rw [MemPool.blockAt, hstride, Nat.mod_eq_of_lt hblock, add32_of_lt (by omega)]

theorem blockAt_last (hroom : Roomy size block_size) (h : Accepted start size block_size) :
    MemPool.blockAt start (RT_ALIGN block_size 8)
        (sub32 (initialPool mp l start size block_size).block_total_count 1) =
      start + ((initialPool mp l start size block_size).block_total_count - 1) *
        (RT_ALIGN block_size 8 + 4) := by
  have hpos := @initial_total_pos mp l start size block_size hroom h
  have hlt : (initialPool mp l start size block_size).block_total_count ≤ RT_ALIGN_DOWN size 8 :=
    Nat.div_le_self _ _
  have hsize := RT_ALIGN_DOWN_eight_lt size
  have hsub : sub32 (initialPool mp l start size block_size).block_total_count 1 =
      (initialPool mp l start size block_size).block_total_count - 1 := by
    rw [sub32]
    omega
  rw [hsub, @blockAt_eq mp l start size block_size hroom h _ (by omega)]

/-- The initialisation of a pool with room writes only inside its memory. -/
theorem initial_inside (hroom : Roomy size block_size) (h : Accepted start size block_size) :
    ∀ store ∈ MemPool.linkStores start (RT_ALIGN block_size 8)
      (initialPool mp l start size block_size).block_total_count,
      start ≤ store.1 ∧ store.1 + 4 ≤ start + size := by
  have hr := @initial_room mp l start size block_size hroom h
  have hpos := @initial_total_pos mp l start size block_size hroom h
  have hin : ∀ i < (initialPool mp l start size block_size).block_total_count,
      start ≤ start + i * (RT_ALIGN block_size 8 + 4) ∧
        start + i * (RT_ALIGN block_size 8 + 4) + 4 ≤ start + size := by
    intro i hi
    have := hr.inside (mem_blocks.mpr ⟨i, hi, rfl⟩)
    dsimp only [initialPool] at this
    omega
  intro store hmem
  rcases List.mem_append.mp hmem with hmem | hmem
  · obtain ⟨i, hi, rfl⟩ := List.mem_map.mp hmem
    have hlt := List.mem_range.mp hi
    rw [@blockAt_eq mp l start size block_size hroom h _ hlt]
    exact hin i hlt
  · obtain rfl := List.mem_singleton.mp hmem
    rw [blockAt_last hroom h]
    exact hin _ (by omega)

/-- After the initialisation of a pool with room all blocks are in the free list. -/
theorem initial_blocks (hroom : Roomy size block_size) (h : Accepted start size block_size)
    (words : Words) :
    let pool := initialPool mp l start size block_size
    MpBlocks pool
      ((MemPool.linkStores start (RT_ALIGN block_size 8) pool.block_total_count).foldl
        (fun m store => m.set store.1 store.2) words) []
      (blocks start (RT_ALIGN block_size 8 + 4) pool.block_total_count) := by
  intro pool
  have hpos : 0 < pool.block_total_count := initial_total_pos hroom h
  have hat : ∀ i < pool.block_total_count, MemPool.blockAt start (RT_ALIGN block_size 8) i =
      start + i * (RT_ALIGN block_size 8 + 4) := fun i hi => blockAt_eq hroom h hi
  have hinj : ∀ i j, i < pool.block_total_count → j < pool.block_total_count →
      MemPool.blockAt start (RT_ALIGN block_size 8) i =
        MemPool.blockAt start (RT_ALIGN block_size 8) j → i = j := by
    intro i j hi hj heq
    rw [hat i hi, hat j hj] at heq
    exact Nat.eq_of_mul_eq_mul_right (by omega) (Nat.add_left_cancel heq)
  refine ⟨?_, by simp [blocks, pool, initialPool], by simp [pool, initialPool], by simp⟩
  have hlinked := @linked_blocks start (RT_ALIGN block_size 8 + 4) pool.block_total_count
    (fun a => link ((MemPool.linkStores start (RT_ALIGN block_size 8) pool.block_total_count).foldl
      (fun m store => m.set store.1 store.2) words a)) ?_ 0 _ (Nat.zero_add _)
  · rw [if_neg (by omega), Nat.zero_mul, Nat.add_zero] at hlinked
    have hhead : link pool.block_list = some start := if_neg (Nat.ne_of_gt h.start_pos)
    rw [hhead]
    simpa [blocks, List.range_eq_range'] using hlinked
  · intro i hi
    rw [MemPool.linkStores, List.foldl_append, List.foldl_cons, List.foldl_nil, blockAt_last hroom h]
    by_cases hlast : i + 1 = pool.block_total_count
    · have hi' : i = pool.block_total_count - 1 := by omega
      rw [if_pos hlast, hi', Words.set_self]
      rfl
    · have hne : start + i * (RT_ALIGN block_size 8 + 4) ≠
          start + (pool.block_total_count - 1) * (RT_ALIGN block_size 8 + 4) := by
        intro heq
        have := Nat.eq_of_mul_eq_mul_right (by omega) (Nat.add_left_cancel heq)
        omega
      rw [if_neg hlast, Words.set_ne hne, ← hat i hi, foldl_links words _ _ hinj i hi,
        hat (i + 1) (by omega)]
      exact if_neg (by have := h.start_pos; omega)

end

/-! ### Runs -/

/-- The free list has as many blocks as the counter says, every block is free or held by one holder, all
of them lie in the memory of the pool and do not overlap, and while no resumed thread has yet to go on no
thread waits for a free block. -/
structure MpContract (start size block_size : Nat) (c : MpSystem) : Prop where
  free_list : ∃ fl, Linked (fun a => link (c.words a)) (link c.mp.block_list) fl ∧
    fl.length = c.mp.block_free_count ∧ (∀ a ∈ fl, start ≤ a ∧ a + 4 + block_size ≤ start + size) ∧
    (fl ++ c.held.map (· - 4)).Pairwise fun a b => a + 4 + block_size ≤ b ∨ b + 4 + block_size ≤ a
  counted : c.mp.block_total_count = c.mp.block_free_count + c.held.length
  distinct : c.held.Nodup
  inside : ∀ p ∈ c.held, start + 4 ≤ p ∧ p + block_size ≤ start + size
  waiting : (∀ t, ¬c.Resumed t) → c.suspended ≠ [] → c.mp.block_free_count = 0

/-- The pool accepts its arguments and initialises itself inside its memory, and every run from there
meets the contract. -/
def PoolWorks (mp l start size block_size : Nat) : Prop :=
  ∃ pool stores, MemPool.rt_mp_init mp l start size block_size = some (pool, stores) ∧
    (∀ store ∈ stores, start ≤ store.1 ∧ store.1 + 4 ≤ start + size) ∧
    ∀ c, (mpMachine pool stores).Reachable c → MpContract start size block_size c

namespace MpSystem

variable {pool : MemPool} {stores : List (Nat × Nat)} {size : Nat} {c c' : MpSystem}

/-- Only the free list and its counter change. -/
structure SamePool (pool mp : MemPool) : Prop where
  address : mp.address = pool.address
  start_address : mp.start_address = pool.start_address
  block_size : mp.block_size = pool.block_size
  block_total_count : mp.block_total_count = pool.block_total_count
  suspend_thread : mp.suspend_thread = pool.suspend_thread

structure MpInv (size : Nat) (pool : MemPool) (c : MpSystem) : Prop where
  same : SamePool pool c.mp
  room : MpRoom c.mp size
  waits : MpWaits c.os c.mp.suspend_thread c.waiting c.mp.block_free_count
  blocks : ∃ fl, MpBlocks c.mp c.words c.held fl

theorem MpInv.alloc {caller : Option Tid} {time : Int} {tick : Nat} {r} (h : MpInv size pool c)
    (hcaller : ∀ t, caller = some t → Runs c.os t) (hisr : caller = none → time = 0)
    (hr : c.mp.rt_mp_alloc c.words c.os time = some r) :
    MpInv size pool (c.afterAlloc caller time tick r) := by
  obtain ⟨hsame, hroom, hwaits, fl, hblocks⟩ := h
  have hnot : ∀ t, caller = some t → t ∉ c.os.suspend_thread c.mp.suspend_thread := fun t ht =>
    (hcaller t ht).not_waiting hwaits.inv _
  unfold MemPool.rt_mp_alloc at hr
  by_cases hfree : c.mp.block_free_count = 0
  · rw [if_pos hfree] at hr
    by_cases htime : time = 0
    · rw [if_pos htime] at hr
      obtain rfl := Option.some.inj hr
      have hnone : c.mp.block_free_count ≤ c.mp.block_free_count - 1 := by omega
      exact ⟨hsame, hroom, hwaits.leave hnot (fun _ _ _ => hnone) (Nat.le_refl _), fl, hblocks⟩
    · rw [if_neg htime] at hr
      obtain ⟨t, hcur, hr⟩ := Option.bind_eq_some_iff.mp hr
      obtain ⟨os, hwait, hr⟩ := Option.bind_eq_some_iff.mp hr
      obtain rfl := Option.some.inj hr
      cases caller with
      | none => exact absurd (hisr rfl) htime
      | some u =>
        have hrun := hcaller u rfl
        obtain rfl := Option.some.inj (hrun.1.symm.trans hcur)
        refine ⟨hsame, hroom, ?_, fl, hblocks⟩
        rw [hfree] at hwaits
        show MpWaits os _ _ c.mp.block_free_count
        rw [hfree]
        exact hwaits.begins (waitFirst_waits hwaits.inv hrun.2 hwait) (hnot u rfl)
  · rw [if_neg hfree] at hr
    obtain ⟨-, hr⟩ := RT_ASSERT_bind_eq_some.mp hr
    obtain rfl := Option.some.inj hr
    obtain ⟨-, fl', hblocks'⟩ := hblocks.alloc hroom hfree
    exact ⟨⟨hsame.1, hsame.2, hsame.3, hsame.4, hsame.5⟩,
      ⟨hroom.1, hroom.2, hroom.3, hroom.4⟩,
      hwaits.leave hnot (fun _ _ _ => Nat.le_refl _) (Nat.sub_le _ _), fl', hblocks'⟩

theorem MpInv.allocResumed {t : Tid} {time : Int} {elapsed tick : Nat} {r} (h : MpInv size pool c)
    (hrun : Runs c.os t) (hr : c.mp.allocResumed c.words c.os t time elapsed = some r) :
    MpInv size pool (c.afterAlloc (some t) (MemPool.timeLeft time elapsed) tick r) := by
  unfold MemPool.allocResumed at hr
  by_cases herr : (c.os.threads t).error ≠ RT_EOK
  · rw [if_pos herr] at hr
    obtain rfl := Option.some.inj hr
    obtain ⟨hsame, hroom, hwaits, fl, hblocks⟩ := h
    refine ⟨hsame, hroom, hwaits.returns ?_ (fun hok => absurd hok herr) (Nat.le_refl _), fl, hblocks⟩
    exact hrun.not_waiting hwaits.inv _
  · rw [if_neg herr] at hr
    exact h.alloc (fun u hu => Option.some.inj hu ▸ hrun) (by simp) hr

theorem MpInv.free {block : Nat} (h : MpInv size pool c) (hs : c.next (.free block) = some c') :
    MpInv size pool c' := by
  obtain ⟨hheld, hs⟩ := Option.ite_none_right_eq_some.mp hs
  obtain ⟨⟨os, mp, words⟩, hrun, rfl⟩ := Option.map_eq_some_iff.mp hs
  obtain ⟨hsame, hroom, hwaits, fl, hblocks⟩ := h
  by_cases hnull : block = 0
  · -- nobody holds the null pointer
    have hnot : block ∉ c.held := by
      intro hmem
      have hin := (hblocks.held_block hroom hmem).2
      omega
    rw [MemPool.rt_mp_free, if_pos hnull] at hrun
    cases hrun
    rw [List.erase_of_not_mem hnot]
    exact ⟨hsame, hroom, hwaits, fl, hblocks⟩
  · have hmem := hheld.resolve_left hnull
    obtain ⟨hsub, hblocks'⟩ := hblocks.free hroom hmem
    rw [MemPool.rt_mp_free, if_neg hnull, hsub, if_pos (hblocks.owner block hmem)] at hrun
    dsimp only at hrun
    cases hl : c.os.suspend_thread c.mp.suspend_thread with
    | nil =>
      rw [hl] at hrun
      cases hrun
      refine ⟨⟨hsame.1, hsame.2, hsame.3, hsame.4, hsame.5⟩, ⟨hroom.1, hroom.2, hroom.3, hroom.4⟩,
        ?_, _, hblocks'⟩
      obtain ⟨hinv, hlisted, htimer, resumed, hnd, hres, -⟩ := hwaits
      exact ⟨hinv, hlisted, htimer, resumed, hnd, hres, fun hne => absurd hl hne⟩
    | cons t rest =>
      have hself : (c.os.setThread t fun th => { th with error := RT_EOK }) = c.os :=
        setThread_eq_self (by rw [← (hwaits.listed t (by simp [hl])).2])
      obtain ⟨hres, hw⟩ := rt_ipc_list_resume_woken hwaits.inv hl
      rw [rt_ipc_list_resume, hl] at hres
      obtain ⟨⟨s1, e⟩, hwake, hres⟩ := Option.bind_eq_some_iff.mp hres
      obtain rfl : s1 = wake c.os t := Option.some.inj hres
      simp only [hl, hself, hwake] at hrun
      cases hrun
      exact ⟨⟨hsame.1, hsame.2, hsame.3, hsame.4, hsame.5⟩,
        ⟨hroom.1, hroom.2, hroom.3, hroom.4⟩, hwaits.wakes hl hw, _, hblocks'⟩

theorem MpInv.step {l : MpStep} (h : MpInv size pool c) (hs : c.next l = some c') :
    MpInv size pool c' := by
  cases l with
  | alloc caller time tick =>
    obtain ⟨hcall, hs⟩ := Option.ite_none_right_eq_some.mp hs
    obtain ⟨r, hr, rfl⟩ := Option.map_eq_some_iff.mp hs
    cases caller with
    | none => exact h.alloc (by simp) (fun _ => hcall) hr
    | some t => exact h.alloc (fun u hu => Option.some.inj hu ▸ hcall.1) (by simp) hr
  | allocResumed t tick =>
    simp only [next] at hs
    split at hs
    · obtain ⟨hrun, hs⟩ := Option.ite_none_right_eq_some.mp hs
      obtain ⟨r, hr, rfl⟩ := Option.map_eq_some_iff.mp hs
      exact h.allocResumed hrun hr
    · cases hs
  | free block => exact h.free hs
  | timeout t =>
    obtain ⟨⟨hwait, hact⟩, hs⟩ := Option.ite_none_right_eq_some.mp hs
    obtain ⟨os, hos, rfl⟩ := Option.map_eq_some_iff.mp hs
    obtain ⟨hsame, hroom, hwaits, hblocks⟩ := h
    exact ⟨hsame, hroom, hwaits.expires (hwaits.timer t hwait hact) (timerExpires_timedOut hwaits.inv hos),
      hblocks⟩
  | schedule =>
    obtain ⟨os, hos, rfl⟩ := Option.map_eq_some_iff.mp hs
    obtain ⟨hsame, hroom, hwaits, hblocks⟩ := h
    exact ⟨hsame, hroom, hwaits.elsewhere (rt_schedule_elsewhere hwaits.inv hos), hblocks⟩
  | store words => cases hs
  | other os => cases hs

theorem reachable_mpInv (h0 : ∀ c, Fresh pool stores c → MpInv size pool c)
    (hr : (mpMachine pool stores).Reachable c) : MpInv size pool c := by
  apply hr.invariant h0
  rintro c l c' - h (hs | ⟨words, -, hw, rfl⟩ | ⟨os, -, rfl, he⟩)
  · exact h.step hs
  · obtain ⟨hsame, hroom, hwaits, fl, hblocks⟩ := h
    exact ⟨hsame, hroom, hwaits, fl, hblocks.store hroom hw⟩
  · obtain ⟨hsame, hroom, hwaits, hblocks⟩ := h
    exact ⟨hsame, hroom, hwaits.elsewhere he, hblocks⟩

theorem MpInv.contract {block_size : Nat} (h : MpInv size pool c) (hsize : block_size ≤ pool.block_size) :
    MpContract pool.start_address size block_size c := by
  obtain ⟨hsame, hroom, hwaits, fl, hblocks⟩ := h
  have hbs := hsame.block_size
  have hstart := hsame.start_address
  refine ⟨⟨fl, hblocks.linked, hblocks.count, fun a ha => ?_, ?_⟩, hblocks.counted, ?_, fun p hp => ?_, ?_⟩
  · have := hroom.inside (hblocks.mem_all (Or.inl ha))
    omega
  · refine List.Pairwise.imp_of_mem (fun {a b} ha hb hne => ?_) hblocks.nodup
    have := blocks_apart (hblocks.mem_all (List.mem_append.mp ha)) (hblocks.mem_all (List.mem_append.mp hb))
    omega
  · exact (List.nodup_append.mp hblocks.nodup).2.1.of_map
  · obtain ⟨hblock, hpos⟩ := hblocks.held_block hroom hp
    have := hroom.inside hblock
    omega
  · intro hnone hne
    obtain ⟨resumed, -, hres, hdue⟩ := hwaits.due
    have hnil : resumed = [] := List.eq_nil_iff_forall_not_mem.mpr fun t ht => hnone t ((hres t).mp ht)
    have := hdue hne
    rw [hnil] at this
    exact Nat.le_zero.mp this

end MpSystem

open MpSystem

theorem memory_pool_works {mp l start size block_size : Nat} (h : Accepted start size block_size)
    (hroom : Roomy size block_size) : PoolWorks mp l start size block_size := by
  refine ⟨_, _, rt_mp_init_eq h, initial_inside hroom h, fun c hr => ?_⟩
  obtain ⟨-, hbs, -⟩ := hroom.sizes h
  have hle : block_size ≤ (initialPool mp l start size block_size).block_size := by
    show block_size ≤ RT_ALIGN block_size 8
    omega
  refine (reachable_mpInv (fun c hc => ?_) hr).contract hle
  obtain ⟨words, hwords⟩ := hc.words
  have hlist : c.os.suspend_thread c.mp.suspend_thread = [] := hc.suspended
  refine ⟨?_, ?_, ?_, ?_⟩
  · rw [hc.mp]
    exact ⟨rfl, rfl, rfl, rfl, rfl⟩
  · rw [hc.mp]
    exact initial_room hroom h
  · refine ⟨hc.inv, fun t ht => ?_, fun t ht => ?_, [], List.nodup_nil, fun t => ?_, fun hne => ?_⟩
    · rw [hlist] at ht
      cases ht
    · rw [hc.waiting] at ht
      cases ht
    · simp [hc.waiting]
    · exact absurd hlist hne
  · rw [hc.mp, hc.held, hwords]
    exact ⟨_, initial_blocks hroom h words⟩

/-- A pool that nobody has used. -/
def unusedPool (pool : MemPool) (stores : List (Nat × Nat)) : MpSystem :=
  { os := createdThreads, mp := pool
    words := stores.foldl (fun m store => m.set store.1 store.2) fun _ => 0
    waiting := fun _ => none, held := [] }

theorem unusedPool_fresh (pool : MemPool) (stores : List (Nat × Nat)) :
    (unusedPool pool stores).Fresh pool stores :=
  ⟨createdThreads_booted.inv, rfl, ⟨fun _ => 0, rfl⟩, rfl, fun _ => rfl, rfl⟩

/-- A pool without room begins with a block that it does not have. -/
theorem PoolWorks.roomy {mp l start size block_size : Nat} (h : Accepted start size block_size)
    (hworks : PoolWorks mp l start size block_size) : Roomy size block_size := by
  obtain ⟨pool, stores, hinit, -, hruns⟩ := hworks
  obtain ⟨rfl, rfl⟩ := Prod.mk.inj (Option.some.inj (hinit.symm.trans (rt_mp_init_eq h)))
  have hcontract := hruns _ (Machine.Reachable.start (unusedPool_fresh _ _))
  obtain ⟨fl, hlinked, hcount, hin, hapart⟩ := hcontract.free_list
  have hhead : link start = some start := if_neg (Nat.ne_of_gt h.start_pos)
  have hcount' : fl.length = RT_ALIGN_DOWN size 8 / add32 (RT_ALIGN block_size 8) 4 := hcount
  have hwraps := h.wraps
  have hstart := h.start_pos
  have hsize := @RT_ALIGN_DOWN_eight size (by omega)
  match fl, hlinked with
  | [], hnil =>
    have hnil : link start = none := hnil
    rw [hhead] at hnil
    cases hnil
  | a :: fl, _ =>
    have ha := hin a List.mem_cons_self
    by_cases hbs : block_size ≤ 2 ^ 32 - 8
    · have hpos : 0 < RT_ALIGN_DOWN size 8 / add32 (RT_ALIGN block_size 8) 4 := by
        rw [← hcount']
        exact Nat.succ_pos _
      have hle := (Nat.div_pos_iff.mp hpos).2
      rw [RT_ALIGN_eight hbs, add32_of_lt (by omega), hsize] at hle
      exact hle
    · -- the size of a block has wrapped to 0, and the blocks overlap
      exfalso
      have hword := h.block_word
      rw [RT_ALIGN_wraps hbs hword, hsize, show add32 0 4 = 4 from rfl] at hcount'
      match fl with
      | [] =>
        rw [List.length_singleton] at hcount'
        omega
      | b :: fl =>
        have hb := hin b (by simp)
        have hab := (List.pairwise_cons.mp (List.pairwise_append.mp hapart).1).1 b List.mem_cons_self
        omega

/-- A pool works if and only if it has room for one block. -/
theorem memory_pool_iff {mp l start size block_size : Nat} (h : Accepted start size block_size) :
    PoolWorks mp l start size block_size ↔ Roomy size block_size :=
  ⟨PoolWorks.roomy h, memory_pool_works h⟩

theorem memory_pool_two : PoolWorks 0x800 0 0x1002 50 13 :=
  (memory_pool_iff ⟨by decide, by decide, by decide, by decide, by decide⟩).mpr (by unfold Roomy; decide)

/-- A pool of 16 bytes has no room for a block of 13 bytes. -/
theorem memory_pool_fails : ¬∀ mp l start size block_size, Accepted start size block_size →
    PoolWorks mp l start size block_size := by
  intro hall
  have h : Accepted 0x1000 16 13 := ⟨by decide, by decide, by decide, by decide, by decide⟩
  have hroom := PoolWorks.roomy h (hall 0x800 0 0x1000 16 13 h)
  exact absurd hroom (by unfold Roomy; decide)

end Ab32Vg1.Kernel
