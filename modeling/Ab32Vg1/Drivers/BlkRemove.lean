import Ab32Vg1.ProofKit.DoublyLinked
import Ab32Vg1.ProofKit.Fuel
import Mathlib.Data.List.Nodup
import Mathlib.Logic.Function.Basic

/-! The list of block devices of `block_dev.c`.  `rt_mmcsd_blk_probe` puts the devices of a card at its
front, and `rt_mmcsd_blk_remove` walks it to take those of a card out and free them. -/

namespace Ab32Vg1.Drivers

open ProofKit

/-- What `rt_mmcsd_blk_remove` does to a device. -/
inductive BlkEvent
  | unmount (path : List UInt8)
  | sem_delete (dev : Nat)
  | unregister (dev : Nat)
  | free (dev : Nat)
  deriving DecidableEq, Repr

/-- The devices by the addresses of their list nodes, with the links of these, the card of each, the
path under which its file system is mounted, whether it is freed, and what was done so far. -/
structure BlkDevices where
  next : Nat → Nat
  prev : Nat → Nat
  card : Nat → Nat
  mounted_path : Nat → Option (List UInt8)
  freed : Nat → Bool
  log : List BlkEvent

/-- The header of the list. -/
def blk_devices : Nat := 0

namespace BlkDevices

/-- `rt_list_remove`. -/
def rt_list_remove (s : BlkDevices) (n : Nat) : BlkDevices :=
  let s := { s with prev := Function.update s.prev (s.next n) (s.prev n) }
  let s := { s with next := Function.update s.next (s.prev n) (s.next n) }
  { s with next := Function.update s.next n n, prev := Function.update s.prev n n }

/-- `rt_list_insert_after`. -/
def rt_list_insert_after (s : BlkDevices) (l n : Nat) : BlkDevices :=
  let s := { s with prev := Function.update s.prev (s.next l) n }
  let s := { s with next := Function.update s.next n (s.next l) }
  { s with next := Function.update s.next l n, prev := Function.update s.prev n l }

/-- The access to a device; a freed one must not be touched. -/
def touch (s : BlkDevices) (dev : Nat) : Option Unit :=
  if s.freed dev = true then none else some ()

def record (s : BlkDevices) (events : List BlkEvent) : BlkDevices := { s with log := s.log ++ events }

/-- The file system on a device is unmounted, if there is one. -/
def unmount (s : BlkDevices) (dev : Nat) : BlkDevices :=
  match s.mounted_path dev with
  | some path => { s with mounted_path := Function.update s.mounted_path dev none }.record [.unmount path]
  | none => s

/-- The body of the loop of `rt_mmcsd_blk_remove`. -/
def removeDevice (s : BlkDevices) (card l : Nat) : Option BlkDevices := do
  s.touch l
  if s.card l = card then
    let s := (s.unmount l).record [.sem_delete l, .unregister l]
    s.touch (s.next l)
    s.touch (s.prev l)
    let s := s.rt_list_remove l
    return { s with freed := Function.update s.freed l true }.record [.free l]
  else return s

/-- The loop of `rt_mmcsd_blk_remove`.  `n` is read once, before the loop. -/
def removeLoop (card : Nat) : (fuel : Nat) → (s : BlkDevices) → (l n : Nat) → Option BlkDevices
  | 0, _, _, _ => none
  | fuel + 1, s, l, n =>
    if l ≠ blk_devices then do
      let s ← s.removeDevice card l
      removeLoop card fuel s n n
    else some s

def rt_mmcsd_blk_remove (fuel : Nat) (s : BlkDevices) (card : Nat) : Option BlkDevices := do
  let l := s.next blk_devices
  s.touch l
  removeLoop card fuel s l (s.next l)

/-- The list holds the devices, none of them freed. -/
structure Lists (s : BlkDevices) (devices : List Nat) : Prop where
  chain : Chained s.next s.prev blk_devices devices blk_devices
  nodup : (blk_devices :: devices).Nodup
  live : ∀ d ∈ blk_devices :: devices, s.freed d = false

/-- What is to be done to a device that goes. -/
def removal (s : BlkDevices) (d : Nat) : List BlkEvent :=
  (match s.mounted_path d with
    | some path => [.unmount path]
    | none => []) ++ [.sem_delete d, .unregister d, .free d]

/-- The walk returns without touching a freed device; the devices of the card are unmounted,
unregistered and freed, each once, and the others are in the list. -/
def RemovesCard (s : BlkDevices) (devices : List Nat) (card : Nat) : Prop :=
  ∃ n, Returns (fun fuel => s.rt_mmcsd_blk_remove fuel card) n fun s' =>
    s'.Lists (devices.filter (s.card · ≠ card)) ∧
      s'.log = s.log ++ (devices.filter (s.card · = card)).flatMap s.removal ∧
      ∀ d, s'.freed d = true ↔ s.freed d = true ∨ d ∈ devices ∧ s.card d = card

variable {s : BlkDevices} {devices : List Nat} {card d : Nat}

/-- The walk never gets past its second device. -/
theorem removeLoop_stuck (hd : d ≠ blk_devices) (fuel : Nat) (s : BlkDevices) :
    removeLoop card fuel s d d = none := by
  induction fuel generalizing s with
  | zero => rfl
  | succ fuel ih =>
    rw [removeLoop, if_pos hd]
    cases hs : s.removeDevice card d with
    | none => rfl
    | some s' => exact ih s'

theorem touch_live (h : s.freed d = false) : s.touch d = some () :=
  if_neg (by rw [h]; exact Bool.false_ne_true)

/-- Two devices or more: the walk does not return. -/
theorem remove_stuck {d1 d2 : Nat} {rest : List Nat} (h : s.Lists (d1 :: d2 :: rest)) (fuel : Nat) :
    s.rt_mmcsd_blk_remove fuel card = none := by
  obtain ⟨h1, -, h2, -⟩ := h.chain
  obtain ⟨hd1, hd2⟩ : d1 ≠ blk_devices ∧ d2 ≠ blk_devices := by
    have hnd := (List.nodup_cons.mp h.nodup).1
    simp only [List.mem_cons, not_or] at hnd
    exact ⟨Ne.symm hnd.1, Ne.symm hnd.2.1⟩
  simp only [rt_mmcsd_blk_remove, h1, touch_live (h.live d1 (by simp)), h2, Option.bind_eq_bind,
    Option.bind_some]
  cases fuel with
  | zero => rfl
  | succ fuel =>
    rw [removeLoop, if_pos hd1]
    cases hs : s.removeDevice card d1 with
    | none => rfl
    | some s' => exact removeLoop_stuck hd2 fuel s'

/-- No device: nothing happens. -/
theorem remove_empty (h : s.Lists []) : s.RemovesCard [] card := by
  obtain ⟨hnext, -⟩ := h.chain
  refine ⟨0, ?_⟩
  simp only [rt_mmcsd_blk_remove, hnext, touch_live (h.live blk_devices (by simp)), Option.bind_eq_bind,
    Option.bind_some]
  refine .stop rfl (fun k => ?_) ⟨h, by simp, by simp⟩
  rw [removeLoop, if_neg (not_not_intro rfl)]

theorem unmount_frame (s : BlkDevices) (d : Nat) :
    (s.unmount d).next = s.next ∧ (s.unmount d).prev = s.prev ∧ (s.unmount d).card = s.card ∧
      (s.unmount d).freed = s.freed := by
  unfold unmount
  split <;> exact ⟨rfl, rfl, rfl, rfl⟩

theorem unmount_log (s : BlkDevices) (d : Nat) :
    (s.unmount d).log ++ [.sem_delete d, .unregister d] ++ [.free d] = s.log ++ s.removal d := by
  unfold unmount removal
  cases s.mounted_path d with
  | some path => simp [record]
  | none => simp

/-- A device leaves the list. -/
theorem Lists.rt_list_remove {l1 l2 : List Nat} (h : s.Lists (l1 ++ d :: l2)) :
    Chained (s.rt_list_remove d).next (s.rt_list_remove d).prev blk_devices (l1 ++ l2) blk_devices := by
  obtain ⟨hhead, hnd⟩ := List.nodup_cons.mp h.nodup
  have hd : d ∉ l1 ++ l2 := by
    obtain ⟨-, hnd2, hdis⟩ := List.nodup_append.mp hnd
    intro hmem
    rcases List.mem_append.mp hmem with hmem | hmem
    · exact hdis d hmem d (by simp) rfl
    · exact (List.nodup_cons.mp hnd2).1 hmem
  have hdh : d ≠ blk_devices := fun heq => hhead (by simp [heq])
  have hself : s.next d ≠ d := by
    intro heq
    have hmem := (Chained.append.mp h.chain).2.next_mem d (by simp)
    rw [heq] at hmem
    rcases List.mem_append.mp hmem with hmem | hmem
    · exact hd (List.mem_append_right l1 hmem)
    · exact hdh (by simpa using hmem)
  refine h.chain.remove h.nodup hhead (fun y hy => ?_) fun y hy => ?_
  · have hne : y ≠ d := by
      rintro rfl
      rcases List.mem_cons.mp hy with hy | hy
      · exact hdh hy
      · exact hd hy
    simp [BlkDevices.rt_list_remove, Function.update_apply, hne, hself.symm]
  · have hne : y ≠ d := by
      rintro rfl
      rcases List.mem_append.mp hy with hy | hy
      · exact hd hy
      · exact hdh (by simpa using hy)
    simp [BlkDevices.rt_list_remove, Function.update_apply, hne]

/-- What the body of the loop does to a device of the card. -/
theorem removeDevice_spec {l1 l2 : List Nat} (h : s.Lists (l1 ++ d :: l2)) :
    ∃ s', s.removeDevice (s.card d) d = some s' ∧ s'.Lists (l1 ++ l2) ∧
      s'.log = s.log ++ s.removal d ∧ s'.freed = Function.update s.freed d true := by
  obtain ⟨hnext, hprev, hcard, hfreed⟩ := s.unmount_frame d
  have hlive (x : Nat) (hx : x ∈ blk_devices :: (l1 ++ d :: l2)) : (s.unmount d).freed x = false := by
    rw [hfreed]
    exact h.live x hx
  have hbetween := (Chained.append.mp h.chain)
  have hn : s.next d ∈ blk_devices :: (l1 ++ d :: l2) := by
    have hmem := hbetween.2.next_mem d (by simp)
    simp at hmem ⊢
    tauto
  have hp : s.prev d ∈ blk_devices :: (l1 ++ d :: l2) := by
    have hmem := hbetween.1.prev_mem d (by simp)
    simp at hmem ⊢
    tauto
  have hlists : ((s.unmount d).record [.sem_delete d, .unregister d]).Lists (l1 ++ d :: l2) :=
    ⟨by simp only [record, hnext, hprev]; exact h.chain, h.nodup, hlive⟩
  have hnd := h.nodup
  rw [← List.cons_append] at hnd
  obtain ⟨hd, hnd'⟩ : d ∉ blk_devices :: (l1 ++ l2) ∧ (blk_devices :: (l1 ++ l2)).Nodup := by
    have hnd2 := (List.perm_middle.nodup_iff).mp hnd
    exact List.nodup_cons.mp hnd2
  refine ⟨{ ((s.unmount d).record [.sem_delete d, .unregister d]).rt_list_remove d with
      freed := Function.update (s.unmount d).freed d true }.record [.free d], ?_, ?_, ?_, ?_⟩
  · simp only [removeDevice, touch_live (h.live d (by simp)), if_true, Option.bind_eq_bind,
      Option.bind_some, Option.pure_def]
    rw [touch_live, touch_live]
    · rfl
    · exact hlive _ (by simp only [record, hprev]; exact hp)
    · exact hlive _ (by simp only [record, hnext]; exact hn)
  · refine ⟨hlists.rt_list_remove, hnd', fun x hx => ?_⟩
    have hne : x ≠ d := fun heq => hd (heq ▸ hx)
    show Function.update (s.unmount d).freed d true x = false
    rw [Function.update_of_ne hne]
    exact hlive x (by simp at hx ⊢; tauto)
  · exact s.unmount_log d
  · show Function.update (s.unmount d).freed d true = _
    rw [hfreed]

/-- One device: it is removed if it is of the card. -/
theorem remove_single (h : s.Lists [d]) : s.RemovesCard [d] card := by
  obtain ⟨h1, -, h2, -⟩ := h.chain
  have hd : d ≠ blk_devices := by
    have hnd := (List.nodup_cons.mp h.nodup).1
    simpa [eq_comm] using hnd
  have hrun (fuel : Nat) : s.rt_mmcsd_blk_remove fuel card = removeLoop card fuel s d blk_devices := by
    simp only [rt_mmcsd_blk_remove, h1, touch_live (h.live d (by simp)), h2, Option.bind_eq_bind,
      Option.bind_some]
  have hends (s' : BlkDevices) {P : BlkDevices → Prop} (hP : P s') :
      Returns (fun fuel => removeLoop card fuel s' blk_devices blk_devices) 0 P :=
    .stop rfl (fun k => by rw [removeLoop, if_neg (not_not_intro rfl)]) hP
  simp only [RemovesCard, hrun]
  by_cases hc : s.card d = card
  · subst hc
    have halone : s.Lists ([] ++ d :: []) := h
    obtain ⟨s', hs, hlists, hlog, hfreed⟩ := removeDevice_spec halone
    refine ⟨1, .step rfl (fun k => ?_) (hends s' ⟨?_, ?_, fun x => ?_⟩)⟩
    · rw [removeLoop, if_pos hd, hs]
      rfl
    · simpa using hlists
    · simpa using hlog
    · rw [hfreed, Function.update_apply]
      split
      · next heq => simp [heq]
      · next hne => simp [hne]
  · have hs : s.removeDevice card d = some s := by
      simp only [removeDevice, touch_live (h.live d (by simp)), if_neg hc, Option.bind_eq_bind,
        Option.bind_some, Option.pure_def]
    refine ⟨1, .step rfl (fun k => ?_) (hends s ⟨?_, ?_, fun x => ?_⟩)⟩
    · rw [removeLoop, if_pos hd, hs]
      rfl
    · simpa [hc] using h
    · simp [hc]
    · constructor
      · exact Or.inl
      · rintro (hx | ⟨hx, hxc⟩)
        · exact hx
        · rw [List.mem_singleton.mp hx] at hxc
          exact absurd hxc hc

end BlkDevices

open BlkDevices in
/-- The removal of a card does what it should just where the list has one device at most, of whatever
card. -/
theorem mmcsd_blk_remove {s : BlkDevices} {devices : List Nat} (h : s.Lists devices) (card : Nat) :
    s.RemovesCard devices card ↔ devices.length ≤ 1 := by
  match devices, h with
  | [], h => exact iff_of_true (remove_empty h) (Nat.zero_le 1)
  | [d], h => exact iff_of_true (remove_single h) (Nat.le_refl 1)
  | d1 :: d2 :: rest, h =>
    refine iff_of_false (fun ⟨n, hn⟩ => ?_) (by simp)
    obtain ⟨s', hs⟩ := hn.total (Nat.lt_succ_self n)
    rw [remove_stuck h] at hs
    cases hs

/-- An empty list; device `d` will belong to card `d / 16`. -/
def noDevices : BlkDevices where
  next := fun _ => 0
  prev := fun _ => 0
  card := fun d => d / 16
  mounted_path := fun _ => none
  freed := fun _ => false
  log := []

theorem noDevices_lists : noDevices.Lists [] := ⟨⟨rfl, rfl⟩, by simp, fun _ _ => rfl⟩

theorem oneDevice_lists : (noDevices.rt_list_insert_after blk_devices 17).Lists [17] :=
  ⟨⟨rfl, rfl, rfl, rfl⟩, by decide, fun _ _ => rfl⟩

theorem mmcsd_blk_remove_single :
    (noDevices.rt_list_insert_after blk_devices 17).RemovesCard [17] 1 :=
  (mmcsd_blk_remove oneDevice_lists 1).mpr (by decide)

/-- Two partitions of card 1: the walk does not return. -/
theorem mmcsd_blk_remove_fails :
    ¬ ∀ (s : BlkDevices) (devices : List Nat), s.Lists devices → ∀ card, s.RemovesCard devices card := by
  intro h
  have hlists : ((noDevices.rt_list_insert_after blk_devices 17).rt_list_insert_after blk_devices
      18).Lists [18, 17] :=
    ⟨⟨rfl, rfl, rfl, rfl, rfl, rfl⟩, by decide, fun _ _ => rfl⟩
  obtain ⟨n, hn⟩ := h _ _ hlists 1
  obtain ⟨s', hs⟩ := hn.total (Nat.lt_succ_self n)
  rw [BlkDevices.remove_stuck hlists] at hs
  cases hs

end Ab32Vg1.Drivers
