import Mathlib.Data.List.Chain
import Mathlib.Tactic.Ring
import Mathlib.Algebra.Order.BigOperators.Group.List

/-! Arenas cut into consecutive blocks.  A tiling is a list of blocks; the offset of a block is the
total size of the blocks before it.  The lemmas say how the first free block, the size in use and
the blocks at given offsets change when a block changes hands, is split, or absorbs its
neighbour. -/

namespace Ab32Vg1.ProofKit

/-- A block of an arena: its extent, at least `room` units and a multiple of `align`, and whether
it is in use. -/
@[ext] structure Block (room align : Nat) where
  size : Nat
  used : Bool
  room_le : room ≤ size
  align_dvd : align ∣ size

namespace Block

variable {room align : Nat}

/-- The block with its use flag replaced. -/
def mark (b : Block room align) (used : Bool) : Block room align := { b with used }

@[simp] theorem mark_size (b : Block room align) (u : Bool) : (b.mark u).size = b.size := rfl
@[simp] theorem mark_used (b : Block room align) (u : Bool) : (b.mark u).used = u := rfl

/-- Two neighbours as one free block. -/
def join (a b : Block room align) : Block room align where
  size := a.size + b.size
  used := false
  room_le := Nat.le_add_right_of_le a.room_le
  align_dvd := Nat.dvd_add a.align_dvd b.align_dvd

@[simp] theorem join_size (a b : Block room align) : (a.join b).size = a.size + b.size := rfl
@[simp] theorem join_used (a b : Block room align) : (a.join b).used = false := rfl

end Block

namespace Tiling

variable {room align : Nat}

/-- The size of a run of blocks. -/
def total (bs : List (Block room align)) : Nat := (bs.map Block.size).sum

/-- The size of the blocks of a run that are in use. -/
def usedTotal (bs : List (Block room align)) : Nat :=
  (bs.map fun b => if b.used then b.size else 0).sum

/-- The offset of the first free block of a run that starts at `o`, or of the run's end. -/
def firstFree : (o : Nat) → List (Block room align) → Nat
  | o, [] => o
  | o, b :: bs => if b.used then firstFree (o + b.size) bs else o

/-- The offset of the first free block of at least `size` units of a run that starts at `o`. -/
def firstFit (size : Nat) : (o : Nat) → List (Block room align) → Option Nat
  | _, [] => none
  | o, b :: bs =>
    if b.used = false ∧ size ≤ b.size then some o else firstFit size (o + b.size) bs

/-- The blocks of a run with their offsets. -/
def placed : (o : Nat) → List (Block room align) → List (Nat × Block room align)
  | _, [] => []
  | o, b :: bs => (o, b) :: placed (o + b.size) bs

/-- No two neighbours are both free. -/
def Coalesced (bs : List (Block room align)) : Prop :=
  bs.IsChain fun a b => a.used = true ∨ b.used = true

theorem firstFree_nil (o : Nat) : firstFree o ([] : List (Block room align)) = o := rfl

theorem firstFree_cons (o : Nat) (b : Block room align) (bs : List (Block room align)) :
    firstFree o (b :: bs) = if b.used then firstFree (o + b.size) bs else o := rfl

theorem firstFit_nil (size o : Nat) :
    firstFit size o ([] : List (Block room align)) = none := rfl

theorem firstFit_cons (size o : Nat) (b : Block room align) (bs : List (Block room align)) :
    firstFit size o (b :: bs) =
      if b.used = false ∧ size ≤ b.size then some o else firstFit size (o + b.size) bs := rfl

theorem placed_nil (o : Nat) : placed o ([] : List (Block room align)) = [] := rfl

theorem placed_cons (o : Nat) (b : Block room align) (bs : List (Block room align)) :
    placed o (b :: bs) = (o, b) :: placed (o + b.size) bs := rfl

@[simp] theorem total_nil : total ([] : List (Block room align)) = 0 := rfl

@[simp] theorem total_cons (b : Block room align) (bs : List (Block room align)) :
    total (b :: bs) = b.size + total bs := by simp [total]

@[simp] theorem total_append (xs ys : List (Block room align)) :
    total (xs ++ ys) = total xs + total ys := by simp [total]

@[simp] theorem usedTotal_nil : usedTotal ([] : List (Block room align)) = 0 := rfl

@[simp] theorem usedTotal_cons (b : Block room align) (bs : List (Block room align)) :
    usedTotal (b :: bs) = (if b.used then b.size else 0) + usedTotal bs := by simp [usedTotal]

@[simp] theorem usedTotal_append (xs ys : List (Block room align)) :
    usedTotal (xs ++ ys) = usedTotal xs + usedTotal ys := by simp [usedTotal]

theorem usedTotal_le (bs : List (Block room align)) : usedTotal bs ≤ total bs := by
  induction bs with
  | nil => simp
  | cons b bs ih =>
    rw [usedTotal_cons, total_cons]
    split <;> omega

theorem length_le_total (hroom : 0 < room) (bs : List (Block room align)) :
    bs.length ≤ total bs := by
  induction bs with
  | nil => simp
  | cons b bs ih =>
    have := b.room_le
    rw [List.length_cons, total_cons]
    omega

theorem dvd_total {k : Nat} {bs : List (Block room align)} (h : ∀ b ∈ bs, k ∣ b.size) :
    k ∣ total bs := by
  induction bs with
  | nil => simp
  | cons b bs ih =>
    obtain ⟨hb, hbs⟩ := List.forall_mem_cons.mp h
    rw [total_cons]
    exact Nat.dvd_add hb (ih hbs)

theorem align_dvd_total (bs : List (Block room align)) : align ∣ total bs :=
  dvd_total fun b _ => b.align_dvd

/-! ### The first free block -/

theorem firstFree_mem (o : Nat) (bs : List (Block room align)) :
    o ≤ firstFree o bs ∧ firstFree o bs ≤ o + total bs := by
  induction bs generalizing o with
  | nil => simp [firstFree_nil]
  | cons b bs ih =>
    have := ih (o + b.size)
    rw [firstFree_cons, total_cons]
    split <;> omega

/-- The search for a free block in a run followed by another one. -/
theorem firstFree_append (o : Nat) (xs ys : List (Block room align)) :
    firstFree o (xs ++ ys) =
      if xs.all Block.used then firstFree (o + total xs) ys else firstFree o xs := by
  induction xs generalizing o with
  | nil => simp
  | cons x xs ih =>
    rw [List.cons_append, firstFree_cons, ih]
    cases hx : x.used
    · simp [hx, firstFree_cons]
    · simp [hx, firstFree_cons, Nat.add_assoc]

theorem firstFree_append_of_free {o : Nat} {xs : List (Block room align)}
    (h : xs.all Block.used = false) (ys : List (Block room align)) :
    firstFree o (xs ++ ys) = firstFree o xs := by
  rw [firstFree_append, h]
  rfl

theorem firstFree_append_of_used {o : Nat} {xs : List (Block room align)}
    (h : xs.all Block.used = true) (ys : List (Block room align)) :
    firstFree o (xs ++ ys) = firstFree (o + total xs) ys := by
  rw [firstFree_append, h]
  rfl

/-- A run with a free block has its first free block before its end. -/
theorem firstFree_lt {o : Nat} {xs : List (Block room align)} (hroom : 0 < room)
    (h : xs.all Block.used = false) : firstFree o xs < o + total xs := by
  induction xs generalizing o with
  | nil => simp at h
  | cons x xs ih =>
    rw [firstFree_cons, total_cons]
    have hsize := x.room_le
    cases hx : x.used
    · simp only [Bool.false_eq_true, if_false]
      omega
    · have := ih (o := o + x.size) (by simpa [hx] using h)
      simp only [if_true]
      omega

theorem firstFree_le_of_free {o : Nat} (pre post : List (Block room align)) {b : Block room align}
    (hb : b.used = false) : firstFree o (pre ++ b :: post) ≤ o + total pre := by
  rw [firstFree_append]
  split
  · simp [firstFree_cons, hb]
  · exact (firstFree_mem o pre).2

/-- A free block absorbs its free successor without moving the first free block. -/
theorem firstFree_join (o : Nat) (pre post : List (Block room align)) {a b : Block room align}
    (ha : a.used = false) :
    firstFree o (pre ++ a.join b :: post) = firstFree o (pre ++ a :: b :: post) := by
  rw [firstFree_append, firstFree_append]
  simp [firstFree_cons, ha]

/-- A block in use that is cut in two is no free block. -/
theorem firstFree_cut_used (o : Nat) (pre post : List (Block room align)) {b c d : Block room align}
    (hb : b.used = true) (hc : c.used = true) (hd : d.used = true)
    (hsize : b.size = c.size + d.size) :
    firstFree o (pre ++ c :: d :: post) = firstFree o (pre ++ b :: post) := by
  rw [firstFree_append, firstFree_append]
  simp [firstFree_cons, hb, hc, hd, hsize, Nat.add_assoc]

/-! ### Coalesced runs -/

theorem Coalesced.left {xs ys : List (Block room align)} (h : Coalesced (xs ++ ys)) :
    Coalesced xs := (List.isChain_append.mp h).1

theorem Coalesced.right {xs ys : List (Block room align)} (h : Coalesced (xs ++ ys)) :
    Coalesced ys := (List.isChain_append.mp h).2.1

theorem Coalesced.tail {b : Block room align} {bs : List (Block room align)}
    (h : Coalesced (b :: bs)) : Coalesced bs := List.IsChain.tail h

/-- A block in use may stand before any coalesced run. -/
theorem Coalesced.cons_used {b : Block room align} {bs : List (Block room align)}
    (h : Coalesced bs) (hb : b.used = true) : Coalesced (b :: bs) :=
  List.isChain_cons.mpr ⟨fun _ _ => Or.inl hb, h⟩

/-- A free block may stand before a coalesced run that starts with a block in use. -/
theorem Coalesced.cons_free {b : Block room align} {bs : List (Block room align)}
    (h : Coalesced bs) (hhead : ∀ x ∈ bs.head?, x.used = true) : Coalesced (b :: bs) :=
  List.isChain_cons.mpr ⟨fun x hx => Or.inr (hhead x hx), h⟩

/-- A block in use may stand between any two coalesced runs. -/
theorem Coalesced.insert_used {pre post : List (Block room align)} {b : Block room align}
    (hpre : Coalesced pre) (hpost : Coalesced post) (hb : b.used = true) :
    Coalesced (pre ++ b :: post) := by
  refine List.isChain_append.mpr ⟨hpre, List.isChain_cons.mpr ⟨fun _ _ => Or.inl hb, hpost⟩, ?_⟩
  intro x _ y hy
  obtain rfl : b = y := by simpa using hy
  exact Or.inr hb

/-- A free block may stand between two coalesced runs whose blocks next to it are in use. -/
theorem Coalesced.insert_free {pre post : List (Block room align)} {b : Block room align}
    (hpre : Coalesced pre) (hpost : Coalesced post)
    (hlast : ∀ x ∈ pre.getLast?, x.used = true) (hhead : ∀ x ∈ post.head?, x.used = true) :
    Coalesced (pre ++ b :: post) := by
  refine List.isChain_append.mpr ⟨hpre, List.isChain_cons.mpr ⟨fun y hy => ?_, hpost⟩, ?_⟩
  · exact Or.inr (hhead y hy)
  · intro x hx _ _
    exact Or.inl (hlast x hx)

/-- The block before a free block of a coalesced run is in use. -/
theorem Coalesced.last_used {pre post : List (Block room align)} {b : Block room align}
    (h : Coalesced (pre ++ b :: post)) (hb : b.used = false) :
    ∀ x ∈ pre.getLast?, x.used = true := by
  intro x hx
  obtain ⟨-, -, hlink⟩ := List.isChain_append.mp h
  exact (hlink x hx b (by simp)).resolve_right (by simp [hb])

theorem Coalesced.head_used {b : Block room align} {bs : List (Block room align)}
    (h : Coalesced (b :: bs)) (hb : b.used = false) : ∀ x ∈ bs.head?, x.used = true := by
  intro x hx
  exact ((List.isChain_cons.mp h).1 x hx).resolve_left (by simp [hb])

/-! ### Blocks by offset -/

theorem placed_append (o : Nat) (xs ys : List (Block room align)) :
    placed o (xs ++ ys) = placed o xs ++ placed (o + total xs) ys := by
  induction xs generalizing o with
  | nil => simp [placed_nil]
  | cons x xs ih => simp [placed_cons, ih, Nat.add_assoc]

/-- A placed block cuts the run at its offset. -/
theorem mem_placed {o p : Nat} {b : Block room align} {bs : List (Block room align)} :
    (p, b) ∈ placed o bs ↔ ∃ pre post, bs = pre ++ b :: post ∧ p = o + total pre := by
  constructor
  · intro h
    induction bs generalizing o with
    | nil => simp [placed_nil] at h
    | cons x xs ih =>
      rcases List.mem_cons.mp h with h | h
      · obtain ⟨rfl, rfl⟩ := Prod.mk.inj h
        exact ⟨[], xs, rfl, rfl⟩
      · obtain ⟨pre, post, rfl, rfl⟩ := ih h
        exact ⟨x :: pre, post, rfl, by rw [total_cons, Nat.add_assoc]⟩
  · rintro ⟨pre, post, rfl, rfl⟩
    rw [placed_append]
    exact List.mem_append_right _ List.mem_cons_self

theorem placed_le {o p : Nat} {b : Block room align} {bs : List (Block room align)}
    (h : (p, b) ∈ placed o bs) : o ≤ p ∧ p + b.size ≤ o + total bs := by
  obtain ⟨pre, post, rfl, rfl⟩ := mem_placed.mp h
  simp
  omega

/-- Placed blocks at different offsets do not overlap. -/
theorem placed_disjoint {o p q : Nat} {a b : Block room align} {bs : List (Block room align)}
    (ha : (p, a) ∈ placed o bs) (hb : (q, b) ∈ placed o bs) (hne : p ≠ q) :
    p + a.size ≤ q ∨ q + b.size ≤ p := by
  induction bs generalizing o with
  | nil => simp [placed_nil] at ha
  | cons x xs ih =>
    rcases List.mem_cons.mp ha with ha | ha <;> rcases List.mem_cons.mp hb with hb | hb
    · obtain ⟨rfl, rfl⟩ := Prod.mk.inj ha
      exact absurd (Prod.mk.inj hb).1.symm hne
    · obtain ⟨rfl, rfl⟩ := Prod.mk.inj ha
      exact Or.inl (placed_le hb).1
    · obtain ⟨rfl, rfl⟩ := Prod.mk.inj hb
      exact Or.inr (placed_le ha).1
    · exact ih ha hb

/-- A placed block is determined by its offset. -/
theorem placed_unique {o p : Nat} {a b : Block room align} {bs : List (Block room align)}
    (hroom : 0 < room) (ha : (p, a) ∈ placed o bs) (hb : (p, b) ∈ placed o bs) : a = b := by
  induction bs generalizing o with
  | nil => simp [placed_nil] at ha
  | cons x xs ih =>
    have hx := x.room_le
    rcases List.mem_cons.mp ha with ha | ha <;> rcases List.mem_cons.mp hb with hb | hb
    · exact (Prod.mk.inj ha).2.trans (Prod.mk.inj hb).2.symm
    · have := (placed_le hb).1
      have := (Prod.mk.inj ha).1
      omega
    · have := (placed_le ha).1
      have := (Prod.mk.inj hb).1
      omega
    · exact ih ha hb

/-- The offsets of the blocks of a run. -/
def starts (o : Nat) (bs : List (Block room align)) : List Nat := (placed o bs).map Prod.fst

theorem starts_append (o : Nat) (xs ys : List (Block room align)) :
    starts o (xs ++ ys) = starts o xs ++ starts (o + total xs) ys := by
  rw [starts, placed_append, List.map_append]
  rfl

theorem mem_starts {o p : Nat} {bs : List (Block room align)} :
    p ∈ starts o bs ↔ ∃ pre b post, bs = pre ++ b :: post ∧ p = o + total pre := by
  constructor
  · intro h
    obtain ⟨⟨q, b⟩, hq, rfl⟩ := List.mem_map.mp h
    obtain ⟨pre, post, hbs, hoff⟩ := mem_placed.mp hq
    exact ⟨pre, b, post, hbs, hoff⟩
  · rintro ⟨pre, b, post, hbs, hoff⟩
    exact List.mem_map.mpr ⟨(p, b), mem_placed.mpr ⟨pre, post, hbs, hoff⟩, rfl⟩

theorem starts_le {o p : Nat} {bs : List (Block room align)} (h : p ∈ starts o bs) :
    o ≤ p ∧ p + room ≤ o + total bs := by
  obtain ⟨⟨q, b⟩, hq, rfl⟩ := List.mem_map.mp h
  have := placed_le hq
  have := b.room_le
  dsimp only
  omega

/-- Blocks at different offsets lie a block's room apart. -/
theorem starts_apart {o p q : Nat} {bs : List (Block room align)} (hp : p ∈ starts o bs)
    (hq : q ∈ starts o bs) : p = q ∨ p + room ≤ q ∨ q + room ≤ p := by
  obtain ⟨pre, a, post, hbs, rfl⟩ := mem_starts.mp hp
  obtain ⟨pre', b, post', hbs', rfl⟩ := mem_starts.mp hq
  have ha := a.room_le
  have hb := b.room_le
  by_cases hne : o + total pre = o + total pre'
  · exact Or.inl hne
  · have := placed_disjoint (mem_placed.mpr ⟨pre, post, hbs, rfl⟩)
      (mem_placed.mpr ⟨pre', post', hbs', rfl⟩) hne
    omega

theorem starts_nodup (hroom : 0 < room) (o : Nat) (bs : List (Block room align)) :
    (starts o bs).Nodup := by
  induction bs generalizing o with
  | nil => exact List.nodup_nil
  | cons b bs ih =>
    refine List.nodup_cons.mpr ⟨fun hmem => ?_, ih (o + b.size)⟩
    have := starts_le (p := o) (o := o + b.size) hmem
    have := b.room_le
    omega

/-- The first free block of a run is one of its blocks. -/
theorem firstFree_split {o : Nat} {bs : List (Block room align)} (h : bs.all Block.used = false) :
    ∃ b, (firstFree o bs, b) ∈ placed o bs ∧ b.used = false := by
  induction bs generalizing o with
  | nil => simp at h
  | cons x xs ih =>
    cases hx : x.used with
    | false => exact ⟨x, by simp [firstFree_cons, placed_cons, hx], hx⟩
    | true =>
      obtain ⟨b, hb, hbu⟩ := ih (o := o + x.size) (by simpa [hx] using h)
      exact ⟨b, by simp [firstFree_cons, placed_cons, hx, hb], hbu⟩

/-! ### The first fit -/

theorem firstFit_append_of_used {size o : Nat} {xs : List (Block room align)}
    (h : xs.all Block.used = true) (ys : List (Block room align)) :
    firstFit size o (xs ++ ys) = firstFit size (o + total xs) ys := by
  induction xs generalizing o with
  | nil => simp
  | cons x xs ih =>
    obtain ⟨hx, hxs⟩ : x.used = true ∧ xs.all Block.used = true := by simpa using h
    rw [List.cons_append, firstFit_cons, if_neg (by simp [hx]), ih hxs, total_cons, Nat.add_assoc]

/-- The first fit is a free block with room, and no free block before it has room. -/
theorem firstFit_eq_some {size o p : Nat} {bs : List (Block room align)}
    (h : firstFit size o bs = some p) :
    ∃ pre b post, bs = pre ++ b :: post ∧ p = o + total pre ∧ b.used = false ∧ size ≤ b.size ∧
      ∀ x ∈ pre, x.used = false → x.size < size := by
  induction bs generalizing o with
  | nil => simp [firstFit_nil] at h
  | cons x xs ih =>
    rw [firstFit_cons] at h
    by_cases hx : x.used = false ∧ size ≤ x.size
    · rw [if_pos hx] at h
      exact ⟨[], x, xs, rfl, (Option.some.inj h).symm, hx.1, hx.2, by simp⟩
    · rw [if_neg hx] at h
      obtain ⟨pre, b, post, rfl, rfl, hb, hsize, hpre⟩ := ih h
      refine ⟨x :: pre, b, post, rfl, by rw [total_cons, Nat.add_assoc], hb, hsize, fun y hy hyu => ?_⟩
      rcases List.mem_cons.mp hy with rfl | hy
      · exact Nat.lt_of_not_le fun hle => hx ⟨hyu, hle⟩
      · exact hpre y hy hyu

/-- A free block with room at `o + total pre` is no earlier than the first fit. -/
theorem firstFit_le {size o : Nat} {pre post : List (Block room align)} {b : Block room align}
    (hb : b.used = false) (hsize : size ≤ b.size) :
    ∃ p, firstFit size o (pre ++ b :: post) = some p ∧ p ≤ o + total pre := by
  induction pre generalizing o with
  | nil => exact ⟨o, by simp [firstFit_cons, hb, hsize], Nat.le_add_right _ _⟩
  | cons x xs ih =>
    rw [List.cons_append, firstFit_cons, total_cons]
    by_cases hx : x.used = false ∧ size ≤ x.size
    · exact ⟨o, if_pos hx, Nat.le_add_right _ _⟩
    · obtain ⟨p, hp, hle⟩ := ih (o := o + x.size)
      exact ⟨p, by rw [if_neg hx, hp], by omega⟩

theorem firstFit_eq_none {size o : Nat} {bs : List (Block room align)} :
    firstFit size o bs = none ↔ ∀ b ∈ bs, b.used = false → b.size < size := by
  constructor
  · intro h b hb hbu
    obtain ⟨pre, post, rfl⟩ := List.append_of_mem hb
    refine Nat.lt_of_not_le fun hle => ?_
    obtain ⟨p, hp, -⟩ := @firstFit_le _ _ _ o pre post b hbu hle
    simp [h] at hp
  · intro h
    cases hf : firstFit size o bs with
    | none => rfl
    | some p =>
      obtain ⟨pre, b, post, rfl, -, hb, hsize, -⟩ := firstFit_eq_some hf
      exact absurd (h b (by simp) hb) (by omega)

/-! ### Free space -/

/-- The units from `lo` up to `hi` belong to one free block of a run that starts at `o`. -/
def InFree (o : Nat) (bs : List (Block room align)) (lo hi : Nat) : Prop :=
  ∃ p b, (p, b) ∈ placed o bs ∧ b.used = false ∧ p ≤ lo ∧ hi ≤ p + b.size

/-- Joining two free blocks keeps the free space in one piece. -/
theorem InFree.join {o lo hi : Nat} {pre post : List (Block room align)} {a b : Block room align}
    (h : InFree o (pre ++ a :: b :: post) lo hi) : InFree o (pre ++ a.join b :: post) lo hi := by
  obtain ⟨p, c, hmem, hc, hlo, hhi⟩ := h
  rw [placed_append, List.mem_append, placed_cons, placed_cons, List.mem_cons, List.mem_cons] at hmem
  have hjoin : (o + total pre, a.join b) ∈ placed o (pre ++ a.join b :: post) :=
    mem_placed.mpr ⟨pre, post, rfl, rfl⟩
  rcases hmem with hmem | heq | heq | hmem
  · exact ⟨p, c, by rw [placed_append]; exact List.mem_append_left _ hmem, hc, hlo, hhi⟩
  · obtain ⟨rfl, rfl⟩ := Prod.mk.inj heq
    exact ⟨_, _, hjoin, rfl, hlo, by rw [Block.join_size]; omega⟩
  · obtain ⟨rfl, rfl⟩ := Prod.mk.inj heq
    exact ⟨_, _, hjoin, rfl, by omega, by rw [Block.join_size]; omega⟩
  · refine ⟨p, c, ?_, hc, hlo, hhi⟩
    rw [placed_append, placed_cons, Block.join_size, ← Nat.add_assoc]
    exact List.mem_append_right _ (List.mem_cons_of_mem _ hmem)

/-! ### The blocks in use -/

/-- The offsets of the blocks of a run that are in use. -/
def usedStarts : (o : Nat) → List (Block room align) → List Nat
  | _, [] => []
  | o, b :: bs => if b.used then o :: usedStarts (o + b.size) bs else usedStarts (o + b.size) bs

theorem usedStarts_nil (o : Nat) : usedStarts o ([] : List (Block room align)) = [] := rfl

theorem usedStarts_cons (o : Nat) (b : Block room align) (bs : List (Block room align)) :
    usedStarts o (b :: bs) =
      if b.used then o :: usedStarts (o + b.size) bs else usedStarts (o + b.size) bs := rfl

theorem usedStarts_append (o : Nat) (xs ys : List (Block room align)) :
    usedStarts o (xs ++ ys) = usedStarts o xs ++ usedStarts (o + total xs) ys := by
  induction xs generalizing o with
  | nil => simp [usedStarts_nil]
  | cons x xs ih =>
    simp only [List.cons_append, usedStarts_cons, ih, total_cons, Nat.add_assoc]
    split <;> simp

theorem mem_usedStarts {o q : Nat} {bs : List (Block room align)} :
    q ∈ usedStarts o bs ↔ ∃ b, (q, b) ∈ placed o bs ∧ b.used = true := by
  induction bs generalizing o with
  | nil => simp [usedStarts_nil, placed_nil]
  | cons x xs ih =>
    simp only [usedStarts_cons, placed_cons, List.mem_cons, Prod.mk.injEq]
    cases hx : x.used
    · simp only [Bool.false_eq_true, if_false, ih]
      refine exists_congr fun b => ⟨fun h => ⟨Or.inr h.1, h.2⟩, ?_⟩
      rintro ⟨⟨-, rfl⟩ | h, hb⟩
      · simp [hx] at hb
      · exact ⟨h, hb⟩
    · simp only [if_true, List.mem_cons, ih]
      constructor
      · rintro (rfl | ⟨b, h, hb⟩)
        · exact ⟨x, Or.inl ⟨rfl, rfl⟩, hx⟩
        · exact ⟨b, Or.inr h, hb⟩
      · rintro ⟨b, ⟨rfl, rfl⟩ | h, hb⟩
        · exact Or.inl rfl
        · exact Or.inr ⟨b, h, hb⟩

/-- A block in use cuts the run at its offset. -/
theorem usedStarts_split {q : Nat} {bs : List (Block room align)} (h : q ∈ usedStarts 0 bs) :
    ∃ pre b post, bs = pre ++ b :: post ∧ q = total pre ∧ b.used = true := by
  obtain ⟨b, hp, hb⟩ := mem_usedStarts.mp h
  obtain ⟨pre, post, rfl, rfl⟩ := mem_placed.mp hp
  exact ⟨pre, b, post, rfl, Nat.zero_add _, hb⟩

theorem usedStarts_lt {o q : Nat} {bs : List (Block room align)} (hroom : 0 < room)
    (h : q ∈ usedStarts o bs) : o ≤ q ∧ q < o + total bs := by
  obtain ⟨b, hp, -⟩ := mem_usedStarts.mp h
  have := placed_le hp
  have := b.room_le
  omega

theorem usedStarts_cons_used {o : Nat} {b : Block room align} {bs : List (Block room align)}
    (h : b.used = true) : usedStarts o (b :: bs) = o :: usedStarts (o + b.size) bs := by
  simp [usedStarts_cons, h]

theorem usedStarts_cons_free {o : Nat} {b : Block room align} {bs : List (Block room align)}
    (h : b.used = false) : usedStarts o (b :: bs) = usedStarts (o + b.size) bs := by
  simp [usedStarts_cons, h]

theorem free_not_mem_usedStarts {pre post : List (Block room align)} {b : Block room align}
    (hroom : 0 < room) (hb : b.used = false) : total pre ∉ usedStarts 0 (pre ++ b :: post) := by
  have hsize := b.room_le
  rw [usedStarts_append, usedStarts_cons_free hb, List.mem_append]
  rintro (h | h)
  · have := usedStarts_lt hroom h
    omega
  · have := usedStarts_lt hroom h
    omega

theorem usedStarts_join (pre post : List (Block room align)) {a b : Block room align}
    (ha : a.used = false) (hb : b.used = false) :
    usedStarts 0 (pre ++ a.join b :: post) = usedStarts 0 (pre ++ a :: b :: post) := by
  rw [usedStarts_append, usedStarts_append, usedStarts_cons_free (Block.join_used a b),
    usedStarts_cons_free ha, usedStarts_cons_free hb, Block.join_size]
  simp only [Nat.add_assoc]

/-- A block in use gives up its tail. -/
theorem usedStarts_cut (pre post : List (Block room align)) {b c d : Block room align}
    (hb : b.used = true) (hc : c.used = true) (hd : d.used = false)
    (hsize : b.size = c.size + d.size) :
    usedStarts 0 (pre ++ c :: d :: post) = usedStarts 0 (pre ++ b :: post) := by
  rw [usedStarts_append, usedStarts_append, usedStarts_cons_used hb, usedStarts_cons_used hc,
    usedStarts_cons_free hd, hsize, Nat.add_assoc _ c.size]

theorem usedTotal_join (pre post : List (Block room align)) {a b : Block room align}
    (ha : a.used = false) (hb : b.used = false) :
    usedTotal (pre ++ a.join b :: post) = usedTotal (pre ++ a :: b :: post) := by
  simp [ha, hb]

/-- Releasing the block at `total pre` takes its offset from the blocks in use. -/
theorem mem_usedStarts_release {pre post : List (Block room align)} {b : Block room align}
    (hroom : 0 < room) (hb : b.used = true) (q : Nat) :
    q ∈ usedStarts 0 (pre ++ b.mark false :: post) ↔
      q ∈ usedStarts 0 (pre ++ b :: post) ∧ q ≠ total pre := by
  have hsize := b.room_le
  have hl : q ∈ usedStarts 0 pre → 0 ≤ q ∧ q < 0 + total pre := usedStarts_lt hroom
  have hr : q ∈ usedStarts (total pre + b.size) post → total pre + b.size ≤ q ∧ q < _ :=
    usedStarts_lt hroom
  rw [usedStarts_append, usedStarts_append, usedStarts_cons_free (Block.mark_used b false),
    usedStarts_cons_used hb]
  simp only [Nat.zero_add, Block.mark_size, List.mem_append, List.mem_cons]
  constructor
  · rintro (h | h)
    · exact ⟨Or.inl h, by have := hl h; omega⟩
    · exact ⟨Or.inr (Or.inr h), by have := hr h; omega⟩
  · rintro ⟨h | rfl | h, hne⟩
    · exact Or.inl h
    · exact absurd rfl hne
    · exact Or.inr h

/-! ### The blocks with one use flag -/

/-- The blocks of a run whose use flag is `u`, with their offsets. -/
def blocksOf (u : Bool) (o : Nat) (bs : List (Block room align)) : List (Nat × Block room align) :=
  (placed o bs).filter fun x => x.2.used = u

/-- The offsets of the blocks of a run whose use flag is `u`. -/
def marked (u : Bool) (o : Nat) (bs : List (Block room align)) : List Nat :=
  (blocksOf u o bs).map Prod.fst

theorem blocksOf_append (u : Bool) (o : Nat) (xs ys : List (Block room align)) :
    blocksOf u o (xs ++ ys) = blocksOf u o xs ++ blocksOf u (o + total xs) ys := by
  rw [blocksOf, placed_append, List.filter_append]
  rfl

theorem blocksOf_cons_self {u : Bool} {o : Nat} {b : Block room align}
    {bs : List (Block room align)} (h : b.used = u) :
    blocksOf u o (b :: bs) = (o, b) :: blocksOf u (o + b.size) bs := by
  simp [blocksOf, placed_cons, h]

theorem blocksOf_cons_other {u : Bool} {o : Nat} {b : Block room align}
    {bs : List (Block room align)} (h : b.used ≠ u) :
    blocksOf u o (b :: bs) = blocksOf u (o + b.size) bs := by
  simp [blocksOf, placed_cons, h]

theorem mem_blocksOf {u : Bool} {o p : Nat} {b : Block room align} {bs : List (Block room align)} :
    (p, b) ∈ blocksOf u o bs ↔ (p, b) ∈ placed o bs ∧ b.used = u := by
  rw [blocksOf, List.mem_filter]
  exact and_congr_right fun _ => decide_eq_true_iff

theorem blocksOf_eq_nil {u : Bool} {o : Nat} {bs : List (Block room align)}
    (h : ∀ b ∈ bs, b.used ≠ u) : blocksOf u o bs = [] := by
  induction bs generalizing o with
  | nil => rfl
  | cons b bs ih =>
    obtain ⟨hb, hbs⟩ := List.forall_mem_cons.mp h
    rw [blocksOf_cons_other hb, ih hbs]

theorem marked_append (u : Bool) (o : Nat) (xs ys : List (Block room align)) :
    marked u o (xs ++ ys) = marked u o xs ++ marked u (o + total xs) ys := by
  rw [marked, blocksOf_append, List.map_append]
  rfl

theorem marked_cons_self {u : Bool} {o : Nat} {b : Block room align} {bs : List (Block room align)}
    (h : b.used = u) : marked u o (b :: bs) = o :: marked u (o + b.size) bs := by
  rw [marked, blocksOf_cons_self h]
  rfl

theorem marked_cons_other {u : Bool} {o : Nat} {b : Block room align} {bs : List (Block room align)}
    (h : b.used ≠ u) : marked u o (b :: bs) = marked u (o + b.size) bs := by
  rw [marked, blocksOf_cons_other h]
  rfl

theorem marked_eq_nil {u : Bool} {o : Nat} {bs : List (Block room align)}
    (h : ∀ b ∈ bs, b.used ≠ u) : marked u o bs = [] := by
  rw [marked, blocksOf_eq_nil h]
  rfl

theorem mem_marked {u : Bool} {o p : Nat} {bs : List (Block room align)} :
    p ∈ marked u o bs ↔ ∃ b, (p, b) ∈ placed o bs ∧ b.used = u := by
  rw [marked, List.mem_map]
  constructor
  · rintro ⟨⟨q, b⟩, hmem, rfl⟩
    exact ⟨b, mem_blocksOf.mp hmem⟩
  · rintro ⟨b, hb⟩
    exact ⟨(p, b), mem_blocksOf.mpr hb, rfl⟩

theorem marked_subset_starts {u : Bool} {o p : Nat} {bs : List (Block room align)}
    (h : p ∈ marked u o bs) : p ∈ starts o bs := by
  obtain ⟨b, hb, -⟩ := mem_marked.mp h
  exact List.mem_map.mpr ⟨(p, b), hb, rfl⟩

theorem marked_le {u : Bool} {o p : Nat} {bs : List (Block room align)} (h : p ∈ marked u o bs) :
    o ≤ p ∧ p + room ≤ o + total bs := starts_le (marked_subset_starts h)

/-- The offsets increase along a run. -/
theorem starts_sorted (hroom : 0 < room) (o : Nat) (bs : List (Block room align)) :
    (starts o bs).Pairwise (· < ·) := by
  induction bs generalizing o with
  | nil => exact List.Pairwise.nil
  | cons b bs ih =>
    refine List.pairwise_cons.mpr ⟨fun p hp => ?_, ih (o + b.size)⟩
    have := (starts_le (p := p) (o := o + b.size) hp).1
    have := b.room_le
    omega

theorem marked_sorted (hroom : 0 < room) (u : Bool) (o : Nat) (bs : List (Block room align)) :
    (marked u o bs).Pairwise (· < ·) :=
  (starts_sorted hroom o bs).sublist (List.filter_sublist.map Prod.fst)

theorem marked_nodup (hroom : 0 < room) (u : Bool) (o : Nat) (bs : List (Block room align)) :
    (marked u o bs).Nodup := (marked_sorted hroom u o bs).imp Nat.ne_of_lt

/-- The blocks of one kind without one of them. -/
theorem blocksOf_filter_ne {u : Bool} {o : Nat} {bs : List (Block room align)}
    {x : Nat × Block room align} {xs ys : List (Nat × Block room align)} (hroom : 0 < room)
    (h : blocksOf u o bs = xs ++ x :: ys) :
    (blocksOf u o bs).filter (·.1 ≠ x.1) = xs ++ ys := by
  have hnodup := marked_nodup hroom u o bs
  rw [marked, h, List.map_append, List.map_cons] at hnodup
  obtain ⟨-, hrest, hdisjoint⟩ := List.nodup_append.mp hnodup
  have hxs : xs.filter (·.1 ≠ x.1) = xs := by
    refine List.filter_eq_self.mpr fun y hy => decide_eq_true ?_
    exact hdisjoint y.1 (List.mem_map_of_mem hy) x.1 List.mem_cons_self
  have hys : ys.filter (·.1 ≠ x.1) = ys := by
    refine List.filter_eq_self.mpr fun y hy => decide_eq_true fun heq => ?_
    exact (List.nodup_cons.mp hrest).1 (heq ▸ List.mem_map_of_mem hy)
  rw [h, List.filter_append, List.filter_cons_of_neg (by simp), hxs, hys]

/-- Offsets of blocks do not lie inside other blocks. -/
theorem starts_outside {o p q : Nat} {b : Block room align} {bs : List (Block room align)}
    (hp : p ∈ starts o bs) (hq : (q, b) ∈ placed o bs) : p + room ≤ q ∨ p = q ∨ q + b.size ≤ p := by
  obtain ⟨⟨p', a⟩, ha, rfl⟩ := List.mem_map.mp hp
  have hroom := a.room_le
  by_cases hne : p' = q
  · exact Or.inr (Or.inl hne)
  · have := placed_disjoint ha hq hne
    dsimp only
    omega

/-- A block keeps its offset and its size when its flag changes. -/
theorem placed_mark {u : Bool} {o p : Nat} {pre post : List (Block room align)}
    {x b : Block room align} (h : (p, x) ∈ placed o (pre ++ b.mark u :: post)) :
    ∃ y, (p, y) ∈ placed o (pre ++ b :: post) ∧ y.size = x.size := by
  rw [placed_append, List.mem_append, placed_cons, List.mem_cons] at h
  rw [placed_append]
  rcases h with h | h | h
  · exact ⟨x, List.mem_append_left _ h, rfl⟩
  · obtain ⟨rfl, rfl⟩ := Prod.mk.inj h
    exact ⟨b, List.mem_append_right _ List.mem_cons_self, rfl⟩
  · exact ⟨x, List.mem_append_right _ (List.mem_cons_of_mem _ h), rfl⟩

/-- The block behind a free block of a coalesced run is in use. -/
theorem Coalesced.behind_used {o p : Nat} {b c : Block room align} {bs : List (Block room align)}
    (h : Coalesced bs) (hroom : 0 < room) (hb : (p, b) ∈ placed o bs) (hfree : b.used = false)
    (hc : (p + b.size, c) ∈ placed o bs) : c.used = true := by
  obtain ⟨pre, post, rfl, rfl⟩ := mem_placed.mp hb
  have hbroom := b.room_le
  have hcroom := c.room_le
  rw [placed_append, List.mem_append, placed_cons, List.mem_cons] at hc
  rcases hc with hc | hc | hc
  · have := placed_le hc
    omega
  · have := (Prod.mk.inj hc).1
    omega
  · obtain ⟨as, post', rfl, hoff⟩ := mem_placed.mp hc
    cases as with
    | nil => exact h.right.head_used hfree c rfl
    | cons a as =>
      have := a.room_le
      rw [total_cons] at hoff
      omega

/-- A gap between the used blocks of a coalesced run belongs to one free block. -/
theorem Coalesced.inFree_of_gap {o lo hi : Nat} {bs : List (Block room align)} (h : Coalesced bs)
    (hlt : lo < hi) (hlo : o ≤ lo) (hhi : hi ≤ o + total bs)
    (hgap : ∀ q b, (q, b) ∈ blocksOf true o bs → q + b.size ≤ lo ∨ hi ≤ q) : InFree o bs lo hi := by
  induction bs generalizing o with
  | nil =>
    rw [total_nil] at hhi
    omega
  | cons x xs ih =>
    by_cases hskip : o + x.size ≤ lo
    · obtain ⟨p, b, hp, hb, hin⟩ := ih h.tail hskip (by rw [total_cons] at hhi; omega) fun q b hq => by
        obtain ⟨hq, hb⟩ := mem_blocksOf.mp hq
        exact hgap q b (mem_blocksOf.mpr ⟨List.mem_cons_of_mem _ hq, hb⟩)
      exact ⟨p, b, List.mem_cons_of_mem _ hp, hb, hin⟩
    · have hx : x.used = false := by
        refine Bool.of_not_eq_true fun hused => ?_
        have := hgap o x (mem_blocksOf.mpr ⟨List.mem_cons_self, hused⟩)
        omega
      refine ⟨o, x, List.mem_cons_self, hx, hlo, ?_⟩
      -- the block behind `x` is used, so the gap ends before it
      cases xs with
      | nil => simpa using hhi
      | cons y ys =>
        have hy : y.used = true := h.head_used hx y rfl
        have := hgap (o + x.size) y (mem_blocksOf.mpr ⟨by simp [placed_cons], hy⟩)
        omega

/-- The last block of a run is free. -/
def LastFree (bs : List (Block room align)) : Prop := ∃ b ∈ bs.getLast?, b.used = false

theorem LastFree.singleton {b : Block room align} : LastFree [b] ↔ b.used = false := by
  simp [LastFree]

theorem LastFree.append_cons {xs ys : List (Block room align)} {b : Block room align} :
    LastFree (xs ++ b :: ys) ↔ LastFree (b :: ys) := by
  rw [LastFree, List.getLast?_append_cons]
  rfl

theorem LastFree.cons_cons {a b : Block room align} {ys : List (Block room align)} :
    LastFree (a :: b :: ys) ↔ LastFree (b :: ys) := by
  rw [LastFree, List.getLast?_cons_cons]
  rfl

/-- Blocks at the end of a run may become one free block. -/
theorem LastFree.replace {pre mid post : List (Block room align)} {a j : Block room align}
    (h : LastFree (pre ++ (a :: mid ++ post))) (hj : j.used = false) : LastFree (pre ++ j :: post) := by
  cases post with
  | nil => exact LastFree.append_cons.mpr (LastFree.singleton.mpr hj)
  | cons c post =>
    rw [LastFree.append_cons, LastFree.cons_cons]
    rw [← List.append_assoc, LastFree.append_cons] at h
    exact h

/-- A run whose last block is free has a free block. -/
theorem LastFree.marked_ne_nil {o : Nat} {bs : List (Block room align)} (h : LastFree bs) :
    marked false o bs ≠ [] := by
  obtain ⟨b, hb, hfree⟩ := h
  obtain ⟨pre, rfl⟩ := List.getLast?_eq_some_iff.mp hb
  rw [marked_append, marked_cons_self hfree]
  exact List.append_ne_nil_of_right_ne_nil _ (List.cons_ne_nil _ _)

end Tiling

end Ab32Vg1.ProofKit
