import Ab32Vg1.ProofKit.Transition
import Mathlib.Logic.Function.Basic
import Mathlib.Data.List.Basic

/-! The descriptor table of `dfs.c`: `fd_new`, `fd_get` and `fd_put`.  A descriptor structure is given
by its address; an access outside of the table or of the allocated structures has no value. -/

namespace Ab32Vg1.Dfs

open ProofKit

def DFS_FD_MAX : Nat := 16

def DFS_FD_OFFSET : Int := 3

def DFS_FD_MAGIC : Nat := 0xfdfd

/-- `struct dfs_fd`, with whether `fops` is there. -/
structure DfsFd where
  magic : Nat
  path : Option (List Char)
  ref_count : Int
  fs : Option Nat
  fops : Bool

/-- What `rt_calloc` gives. -/
def DfsFd.cleared : DfsFd := ⟨0, none, 0, none, false⟩

/-- `struct dfs_fdtable`, with the allocated descriptor structures. -/
structure DfsFdtable where
  maxfd : Nat
  fds : List (Option Nat)
  heap : Nat → Option DfsFd

/-- What the allocator answers: whether the container can grow, and the new structure. -/
structure Allocation where
  realloc : Bool
  calloc : Option Nat

namespace DfsFdtable

/-- The loop of `fd_alloc` with `n` entries left. -/
def scan (fdt : DfsFdtable) : Nat → Nat → Option Nat
  | 0, idx => some idx
  | n + 1, idx => do
    match ← fdt.fds[idx]? with
    | none => some idx
    | some d => if (← fdt.heap d).ref_count = 0 then some idx else fdt.scan n (idx + 1)

/-- A larger container, with the new entries cleared. -/
def grow (fdt : DfsFdtable) : DfsFdtable :=
  let cnt := min (fdt.maxfd + 4) DFS_FD_MAX
  { fdt with fds := fdt.fds ++ List.replicate (cnt - fdt.maxfd) none, maxfd := cnt }

/-- The structure of an empty entry. -/
def fill (fdt : DfsFdtable) (memory : Allocation) (idx : Nat) : Nat × DfsFdtable :=
  if idx < fdt.maxfd ∧ fdt.fds[idx]? = some none then
    match memory.calloc with
    | none => (fdt.maxfd, fdt)
    | some d => (idx, { fdt with
        fds := fdt.fds.set idx (some d), heap := Function.update fdt.heap d (some .cleared) })
  else (idx, fdt)

def fd_alloc (fdt : DfsFdtable) (memory : Allocation) (startfd : Nat) : Option (Nat × DfsFdtable) := do
  let idx ← fdt.scan (fdt.maxfd - startfd) startfd
  if idx = fdt.maxfd ∧ fdt.maxfd < DFS_FD_MAX then
    if memory.realloc then some (fdt.grow.fill memory idx) else some (idx, fdt)
  else some (fdt.fill memory idx)

/-- The structure at `d` becomes `fd`. -/
def store (fdt : DfsFdtable) (d : Nat) (fd : DfsFd) : DfsFdtable :=
  { fdt with heap := Function.update fdt.heap d (some fd) }

def fd_new (fdt : DfsFdtable) (memory : Allocation) : Option (Int × DfsFdtable) := do
  let (idx, fdt) ← fdt.fd_alloc memory 0
  if idx = fdt.maxfd then some (-(1 + DFS_FD_OFFSET) + DFS_FD_OFFSET, fdt)
  else
    let d ← (← fdt.fds[idx]?)
    let fd ← fdt.heap d
    some (idx + DFS_FD_OFFSET, fdt.store d { fd with ref_count := 1, magic := DFS_FD_MAGIC })

/-- The structure of a descriptor, or `NULL`. -/
def fd_get (fdt : DfsFdtable) (fd : Int) : Option (Option Nat × DfsFdtable) := do
  let fd := fd - DFS_FD_OFFSET
  if fd < 0 ∨ fd ≥ fdt.maxfd then some (none, fdt)
  else
    match ← fdt.fds[fd.toNat]? with
    | none => some (none, fdt)
    | some d =>
      let f ← fdt.heap d
      if f.magic ≠ DFS_FD_MAGIC then some (none, fdt)
      else some (some d, fdt.store d { f with ref_count := f.ref_count + 1 })

def fd_put (fdt : DfsFdtable) (d : Nat) : Option DfsFdtable := do
  let f ← fdt.heap d
  let fdt := fdt.store d { f with ref_count := f.ref_count - 1 }
  if f.ref_count - 1 = 0 then
    match (fdt.fds.take fdt.maxfd).findIdx? (· = some d) with
    | none => some fdt
    | some index => some { fdt with
        heap := Function.update fdt.heap d none, fds := fdt.fds.set index none }
  else some fdt

end DfsFdtable

/-! ### References -/

/-- A table with the references that were handed out and not put back yet. -/
structure Shared where
  fdt : DfsFdtable
  refs : Nat → Nat

inductive FdOp where
  | new (memory : Allocation)
  | get (fd : Int)
  | put (d : Nat)

namespace Shared

/-- One more reference to `d`. -/
def take (s : Shared) (d : Nat) : Nat → Nat := Function.update s.refs d (s.refs d + 1)

def drop (s : Shared) (d : Nat) : Nat → Nat := Function.update s.refs d (s.refs d - 1)

/-- The structure of the descriptor that a call returned. -/
def structOf (fdt : DfsFdtable) (fd : Int) : Option Nat :=
  if fd < 0 then none else (fdt.fds[(fd - DFS_FD_OFFSET).toNat]?).join

/-- A call; an allocated structure is not one that is in use, and a put has its reference. -/
def next (s : Shared) : FdOp → Option Shared
  | .new memory => do
    if memory.calloc.any fun d => (s.fdt.heap d).isSome then none
    else
      let (fd, fdt) ← s.fdt.fd_new memory
      some ⟨fdt, (structOf fdt fd).elim s.refs s.take⟩
  | .get fd => do
    let (d, fdt) ← s.fdt.fd_get fd
    some ⟨fdt, d.elim s.refs s.take⟩
  | .put d => do
    if s.refs d = 0 then none
    else some ⟨← s.fdt.fd_put d, s.drop d⟩

end Shared

/-- The table as `dfs_init` clears it. -/
def fdTable : Machine Shared FdOp where
  start s := s = ⟨⟨0, [], fun _ => none⟩, fun _ => 0⟩
  step s op s' := s.next op = some s'

/-- Every entry has its own allocated structure, and the counts are the references. -/
structure Shared.Inv (s : Shared) : Prop where
  slots : s.fdt.maxfd = s.fdt.fds.length
  count : ∀ d fd, s.fdt.heap d = some fd →
    fd.ref_count = s.refs d ∧ 0 < s.refs d ∧ fd.magic = DFS_FD_MAGIC
  listed : ∀ d, 0 < s.refs d → ∃ i : Nat, s.fdt.fds[i]? = some (some d)
  allocated : ∀ (i d : Nat), s.fdt.fds[i]? = some (some d) → ∃ fd, s.fdt.heap d = some fd
  single : ∀ (i j d : Nat), s.fdt.fds[i]? = some (some d) → s.fdt.fds[j]? = some (some d) → i = j

theorem store_self (fdt : DfsFdtable) (d : Nat) (fd : DfsFd) : (fdt.store d fd).heap d = some fd :=
  Function.update_self ..

theorem store_other (fdt : DfsFdtable) {d e : Nat} (fd : DfsFd) (h : e ≠ d) :
    (fdt.store d fd).heap e = fdt.heap e :=
  Function.update_of_ne h _ _

section Calls

variable {s : Shared} {fdt fdt' : DfsFdtable} {memory : Allocation} {d : Nat}

/-- The scan stops at an empty entry, or behind the table. -/
theorem scan_stops (h : s.Inv) {n idx : Nat} (hn : idx + n = s.fdt.maxfd) :
    ∃ k, s.fdt.scan n idx = some k ∧ k ≤ s.fdt.maxfd ∧
      (k = s.fdt.maxfd ∨ s.fdt.fds[k]? = some none) := by
  induction n generalizing idx with
  | zero => exact ⟨idx, rfl, by omega, Or.inl (by omega)⟩
  | succ n ih =>
    have hlt : idx < s.fdt.fds.length := by
      rw [← h.slots]
      omega
    have hread := List.getElem?_eq_getElem hlt
    rw [DfsFdtable.scan, hread]
    cases hentry : s.fdt.fds[idx] with
    | none => exact ⟨idx, rfl, by omega, Or.inr (hread.trans (congrArg some hentry))⟩
    | some d =>
      obtain ⟨fd, hfd⟩ := h.allocated idx d (hread.trans (congrArg some hentry))
      obtain ⟨hcount, hpos, -⟩ := h.count d fd hfd
      simp only [Option.bind_eq_bind, Option.bind_some, hfd]
      rw [if_neg (by omega)]
      exact ih (by omega)

/-- A table with more empty entries, as `fd_alloc` leaves it where the structure cannot be allocated. -/
structure Grown (fdt fdt' : DfsFdtable) (n : Nat) : Prop where
  heap : fdt'.heap = fdt.heap
  fds : fdt'.fds = fdt.fds ++ List.replicate n none
  slots : fdt'.maxfd = fdt'.fds.length

theorem Grown.refl (h : fdt.maxfd = fdt.fds.length) : Grown fdt fdt 0 := ⟨rfl, by simp, h⟩

theorem grow_grown (h : fdt.maxfd = fdt.fds.length) (hmax : fdt.maxfd < DFS_FD_MAX) :
    ∃ n, 0 < n ∧ Grown fdt fdt.grow n := by
  refine ⟨min (fdt.maxfd + 4) DFS_FD_MAX - fdt.maxfd, by omega, rfl, rfl, ?_⟩
  simp only [DfsFdtable.grow, List.length_append, List.length_replicate]
  omega

/-- The entries of a table stay where they are. -/
theorem Grown.entry {n i : Nat} (h : Grown fdt fdt' n) (hi : fdt.fds[i]? = some (some d)) :
    fdt'.fds[i]? = some (some d) := by
  rw [h.fds, List.getElem?_append_left (List.getElem?_eq_some_iff.mp hi).1, hi]

theorem Grown.old {n i : Nat} (h : Grown fdt fdt' n) (hi : fdt'.fds[i]? = some (some d)) :
    fdt.fds[i]? = some (some d) := by
  rw [h.fds] at hi
  rcases Nat.lt_or_ge i fdt.fds.length with hlt | hge
  · rwa [List.getElem?_append_left hlt] at hi
  · rw [List.getElem?_append_right hge, List.getElem?_replicate] at hi
    split at hi
    · cases hi
    · cases hi

/-- `fd_alloc` finds no structure, or puts a new one in an empty entry of the table, which may have
grown. -/
theorem fd_alloc_spec (h : s.Inv) (memory : Allocation) :
    ∃ n fdt, Grown s.fdt fdt n ∧ (s.fdt.fd_alloc memory 0 = some (fdt.maxfd, fdt) ∨
      ∃ k d : Nat, fdt.fds[k]? = some none ∧ memory.calloc = some d ∧
        s.fdt.fd_alloc memory 0 = some (k, { fdt with
          fds := fdt.fds.set k (some d), heap := Function.update fdt.heap d (some .cleared) })) := by
  obtain ⟨k, hscan, hle, hk⟩ := scan_stops h (Nat.zero_add s.fdt.maxfd)
  have hfill : ∀ n fdt, Grown s.fdt fdt n → (k = fdt.maxfd ∨ fdt.fds[k]? = some none) →
      ∃ n fdt', Grown s.fdt fdt' n ∧ (fdt.fill memory k = (fdt'.maxfd, fdt') ∨
        ∃ k' d : Nat, fdt'.fds[k']? = some none ∧ memory.calloc = some d ∧
          fdt.fill memory k = (k', { fdt' with
            fds := fdt'.fds.set k' (some d), heap := Function.update fdt'.heap d (some .cleared) })) := by
    intro n fdt hg hend
    refine ⟨n, fdt, hg, ?_⟩
    rcases hend with rfl | hempty
    · refine Or.inl (if_neg fun h => Nat.lt_irrefl _ h.1)
    · have hlt := (List.getElem?_eq_some_iff.mp hempty).1
      rw [DfsFdtable.fill, if_pos ⟨hg.slots ▸ hlt, hempty⟩]
      cases hcalloc : memory.calloc with
      | none => exact Or.inl rfl
      | some d => exact Or.inr ⟨k, d, hempty, rfl, rfl⟩
  simp only [DfsFdtable.fd_alloc, Nat.sub_zero, hscan, Option.bind_eq_bind, Option.bind_some]
  split
  · next hfull =>
    obtain ⟨rfl, hmax⟩ := hfull
    split
    · obtain ⟨n, hn, hg⟩ := grow_grown h.slots hmax
      have hempty : s.fdt.grow.fds[s.fdt.maxfd]? = some none := by
        rw [hg.fds, List.getElem?_append_right (Nat.le_of_eq h.slots.symm), h.slots, Nat.sub_self,
          List.getElem?_replicate, if_pos hn]
      simpa using hfill n s.fdt.grow hg (Or.inr hempty)
    · exact ⟨0, s.fdt, .refl h.slots, Or.inl rfl⟩
  · simpa using hfill 0 s.fdt (.refl h.slots) hk

/-- The structure at `d` in the empty entry `k`, with its first reference. -/
def DfsFdtable.opened (fdt : DfsFdtable) (k d : Nat) : DfsFdtable :=
  { fdt with
    fds := fdt.fds.set k (some d)
    heap := Function.update fdt.heap d (some { DfsFd.cleared with magic := DFS_FD_MAGIC, ref_count := 1 }) }

theorem opened_entry {k : Nat} (hk : fdt.fds[k]? = some none) :
    (fdt.opened k d).fds[k]? = some (some d) := by
  simp [DfsFdtable.opened, (List.getElem?_eq_some_iff.mp hk).1]

theorem opened_other {k i d' : Nat} (hk : fdt.fds[k]? = some none)
    (hi : fdt.fds[i]? = some (some d')) : (fdt.opened k d).fds[i]? = some (some d') := by
  have hne : k ≠ i := by
    rintro rfl
    rw [hk] at hi
    cases hi
  rw [DfsFdtable.opened, List.getElem?_set_ne hne, hi]

theorem fd_new_spec (h : s.Inv) (memory : Allocation) :
    ∃ n fdt, Grown s.fdt fdt n ∧ (s.fdt.fd_new memory = some (-1, fdt) ∨
      ∃ k d : Nat, fdt.fds[k]? = some none ∧ memory.calloc = some d ∧
        s.fdt.fd_new memory = some (k + DFS_FD_OFFSET, fdt.opened k d)) := by
  obtain ⟨n, fdt, hg, halloc | ⟨k, d, hk, hd, halloc⟩⟩ := fd_alloc_spec h memory
  · refine ⟨n, fdt, hg, Or.inl ?_⟩
    simp only [DfsFdtable.fd_new, halloc, Option.bind_eq_bind, Option.bind_some]
    rfl
  · refine ⟨n, fdt, hg, Or.inr ⟨k, d, hk, hd, ?_⟩⟩
    have hlt := (List.getElem?_eq_some_iff.mp hk).1
    have hslots := hg.slots
    have hread : (fdt.fds.set k (some d))[k]? = some (some d) := by simp [hlt]
    simp only [DfsFdtable.fd_new, halloc, Option.bind_eq_bind, Option.bind_some]
    rw [if_neg (by omega)]
    simp only [hread, Option.bind_some, Function.update_self, DfsFdtable.store, DfsFdtable.opened,
      Function.update_idem]

theorem Shared.Inv.grown {n : Nat} (h : s.Inv) (hg : Grown s.fdt fdt n) :
    Shared.Inv ⟨fdt, s.refs⟩ := by
  refine ⟨hg.slots, ?_, fun d hd => ?_, fun i d hi => ?_, fun i j d hi hj => ?_⟩
  · rw [hg.heap]
    exact h.count
  · obtain ⟨i, hi⟩ := h.listed d hd
    exact ⟨i, hg.entry hi⟩
  · rw [hg.heap]
    exact h.allocated i d (hg.old hi)
  · exact h.single i j d (hg.old hi) (hg.old hj)

/-- A structure that is not allocated has no references. -/
theorem Shared.Inv.unused (h : s.Inv) (hd : s.fdt.heap d = none) : s.refs d = 0 := by
  by_contra hpos
  obtain ⟨i, hi⟩ := h.listed d (Nat.pos_of_ne_zero hpos)
  obtain ⟨fd, hfd⟩ := h.allocated i d hi
  rw [hd] at hfd
  cases hfd

theorem Shared.Inv.opened {k : Nat} (h : s.Inv) (hk : s.fdt.fds[k]? = some none)
    (hd : s.fdt.heap d = none) : Shared.Inv ⟨s.fdt.opened k d, s.take d⟩ := by
  have hrefs := h.unused hd
  have hold : ∀ i d' : Nat, (s.fdt.opened k d).fds[i]? = some (some d') →
      i = k ∧ d' = d ∨ i ≠ k ∧ s.fdt.fds[i]? = some (some d') := by
    intro i d' hi
    by_cases hik : i = k
    · subst hik
      rw [opened_entry hk] at hi
      exact Or.inl ⟨rfl, (Option.some.inj (Option.some.inj hi)).symm⟩
    · rw [DfsFdtable.opened, List.getElem?_set_ne (Ne.symm hik)] at hi
      exact Or.inr ⟨hik, hi⟩
  have hother : ∀ i : Nat, s.fdt.fds[i]? ≠ some (some d) := by
    intro i hi
    obtain ⟨fd, hfd⟩ := h.allocated i d hi
    rw [hd] at hfd
    cases hfd
  refine ⟨?_, fun d' fd hfd => ?_, fun d' hd' => ?_, fun i d' hi => ?_, fun i j d' hi hj => ?_⟩
  · simp only [DfsFdtable.opened, List.length_set]
    exact h.slots
  · simp only [DfsFdtable.opened, Shared.take, Function.update_apply] at hfd ⊢
    split at hfd
    · next heq =>
      obtain rfl := Option.some.inj hfd
      rw [if_pos heq, hrefs]
      exact ⟨rfl, Nat.one_pos, rfl⟩
    · next hne =>
      rw [if_neg hne]
      exact h.count d' fd hfd
  · simp only [Shared.take, Function.update_apply] at hd'
    split at hd'
    · next heq => exact ⟨k, heq ▸ opened_entry hk⟩
    · next hne =>
      obtain ⟨i, hi⟩ := h.listed d' hd'
      exact ⟨i, opened_other hk hi⟩
  · simp only [DfsFdtable.opened, Function.update_apply]
    rcases hold i d' hi with ⟨-, rfl⟩ | ⟨-, hi⟩
    · exact ⟨_, if_pos rfl⟩
    · obtain ⟨fd, hfd⟩ := h.allocated i d' hi
      have hne : d' ≠ d := fun heq => hother i (heq ▸ hi)
      exact ⟨fd, by rw [if_neg hne, hfd]⟩
  · rcases hold i d' hi with ⟨hik, hd'⟩ | ⟨-, hi'⟩
    · rcases hold j d' hj with ⟨hjk, -⟩ | ⟨-, hj'⟩
      · rw [hik, hjk]
      · exact absurd (hd' ▸ hj') (hother j)
    · rcases hold j d' hj with ⟨-, hd'⟩ | ⟨-, hj'⟩
      · exact absurd (hd' ▸ hi') (hother i)
      · exact h.single i j d' hi' hj'

/-- `fd_get` gives the structure of a live descriptor, and counts it. -/
theorem fd_get_spec (h : s.Inv) (fd : Int) :
    s.fdt.fd_get fd = some (none, s.fdt) ∧ (∀ i : Nat, fd = i + DFS_FD_OFFSET →
      ∀ d, s.fdt.fds[i]? ≠ some (some d)) ∨
    ∃ (i d : Nat) (f : DfsFd), fd = i + DFS_FD_OFFSET ∧ s.fdt.fds[i]? = some (some d) ∧
      s.fdt.heap d = some f ∧
      s.fdt.fd_get fd = some (some d, s.fdt.store d { f with ref_count := f.ref_count + 1 }) := by
  have hslots := h.slots
  simp only [DfsFdtable.fd_get]
  by_cases hout : fd - DFS_FD_OFFSET < 0 ∨ fd - DFS_FD_OFFSET ≥ s.fdt.maxfd
  · refine Or.inl ⟨if_pos hout, fun i hi d hentry => ?_⟩
    have hlt := (List.getElem?_eq_some_iff.mp hentry).1
    omega
  · obtain ⟨i, rfl⟩ : ∃ i : Nat, fd = i + DFS_FD_OFFSET :=
      ⟨(fd - DFS_FD_OFFSET).toNat, by omega⟩
    have hidx : ((i : Int) + DFS_FD_OFFSET - DFS_FD_OFFSET).toNat = i := by omega
    have hlt : i < s.fdt.fds.length := by omega
    have hread := List.getElem?_eq_getElem hlt
    rw [if_neg hout, hidx, hread]
    cases hentry : s.fdt.fds[i] with
    | none =>
      refine Or.inl ⟨rfl, fun j hj d hd => ?_⟩
      obtain rfl : i = j := by omega
      rw [hread, hentry] at hd
      cases hd
    | some d =>
      have hid := hread.trans (congrArg some hentry)
      obtain ⟨f, hf⟩ := h.allocated i d hid
      refine Or.inr ⟨i, d, f, rfl, hid.symm ▸ rfl, hf, ?_⟩
      simp only [Option.bind_eq_bind, Option.bind_some, hf]
      exact if_neg fun hmagic => hmagic (h.count d f hf).2.2

/-- The entry of `d` becomes empty, and its structure is released. -/
def DfsFdtable.closed (fdt : DfsFdtable) (i d : Nat) : DfsFdtable :=
  { fdt with fds := fdt.fds.set i none, heap := Function.update fdt.heap d none }

/-- `fd_put` releases a structure with its last reference. -/
theorem fd_put_spec (h : s.Inv) (hd : 0 < s.refs d) :
    ∃ (i : Nat) (f : DfsFd), s.fdt.fds[i]? = some (some d) ∧ s.fdt.heap d = some f ∧
      s.fdt.fd_put d = some (if s.refs d = 1 then s.fdt.closed i d
        else s.fdt.store d { f with ref_count := f.ref_count - 1 }) := by
  obtain ⟨i, hi⟩ := h.listed d hd
  obtain ⟨f, hf⟩ := h.allocated i d hi
  obtain ⟨hcount, -, -⟩ := h.count d f hf
  refine ⟨i, f, hi, hf, ?_⟩
  simp only [DfsFdtable.fd_put, hf, Option.bind_eq_bind, Option.bind_some]
  by_cases hlast : s.refs d = 1
  · have hfind : ((s.fdt.store d { f with ref_count := f.ref_count - 1 }).fds.take
        s.fdt.maxfd).findIdx? (fun e => decide (e = some d)) = some i := by
      obtain ⟨hlt, hentry⟩ := List.getElem?_eq_some_iff.mp hi
      rw [h.slots]
      refine List.findIdx?_eq_some_iff_getElem.mpr ⟨by simpa [DfsFdtable.store] using hlt, ?_, ?_⟩
      · simpa [DfsFdtable.store] using hentry
      · intro j hj
        have hne : s.fdt.fds[j] ≠ some d := by
          intro heq
          have hjd : s.fdt.fds[j]? = some (some d) := List.getElem?_eq_some_iff.mpr ⟨_, heq⟩
          exact absurd (h.single j i d hjd hi) (Nat.ne_of_lt hj)
        simpa [DfsFdtable.store] using hne
    rw [if_pos (by omega), if_pos hlast]
    have hmax : (s.fdt.store d { f with ref_count := f.ref_count - 1 }).maxfd = s.fdt.maxfd := rfl
    rw [hmax, hfind]
    simp only [DfsFdtable.closed, DfsFdtable.store, Function.update_idem]
  · rw [if_neg (by omega), if_neg hlast]

theorem Shared.Inv.stored {f f' : DfsFd} {refs : Nat → Nat} (h : s.Inv)
    (hf : s.fdt.heap d = some f) (hmagic : f'.magic = f.magic) (hcount : f'.ref_count = refs d)
    (hpos : 0 < refs d) (hother : ∀ d', d' ≠ d → refs d' = s.refs d') :
    Shared.Inv ⟨s.fdt.store d f', refs⟩ := by
  obtain ⟨-, hused, hm⟩ := h.count d f hf
  refine ⟨h.slots, fun d' fd hfd => ?_, fun d' hd' => ?_, fun i d' hi => ?_, h.single⟩
  · simp only [DfsFdtable.store, Function.update_apply] at hfd
    split at hfd
    · next heq =>
      obtain rfl := Option.some.inj hfd
      subst heq
      exact ⟨hcount, hpos, hmagic.trans hm⟩
    · next hne =>
      simp only [hother d' hne]
      exact h.count d' fd hfd
  · by_cases heq : d' = d
    · exact heq ▸ h.listed d hused
    · simp only [hother d' heq] at hd'
      exact h.listed d' hd'
  · simp only [DfsFdtable.store, Function.update_apply]
    split
    · exact ⟨f', rfl⟩
    · exact h.allocated i d' hi

/-- The file of a descriptor is changed. -/
theorem Shared.Inv.rewritten {f f' : DfsFd} (h : s.Inv) (hf : s.fdt.heap d = some f)
    (hmagic : f'.magic = f.magic) (hcount : f'.ref_count = f.ref_count) :
    Shared.Inv ⟨s.fdt.store d f', s.refs⟩ := by
  obtain ⟨hrefs, hpos, -⟩ := h.count d f hf
  exact h.stored hf hmagic (hcount.trans hrefs) hpos fun _ _ => rfl

theorem Shared.Inv.taken {f : DfsFd} (h : s.Inv) (hf : s.fdt.heap d = some f) :
    Shared.Inv ⟨s.fdt.store d { f with ref_count := f.ref_count + 1 }, s.take d⟩ := by
  obtain ⟨hcount, -, -⟩ := h.count d f hf
  refine h.stored hf rfl ?_ ?_ fun d' hne => Function.update_of_ne hne _ _
  · simp only [Shared.take, Function.update_self, hcount]
    push_cast
    rfl
  · simp only [Shared.take, Function.update_self]
    omega

theorem Shared.Inv.dropped {f : DfsFd} (h : s.Inv) (hf : s.fdt.heap d = some f)
    (hmore : s.refs d ≠ 1) :
    Shared.Inv ⟨s.fdt.store d { f with ref_count := f.ref_count - 1 }, s.drop d⟩ := by
  obtain ⟨hcount, hpos, -⟩ := h.count d f hf
  refine h.stored hf rfl ?_ ?_ fun d' hne => Function.update_of_ne hne _ _
  · simp only [Shared.drop, Function.update_self, hcount]
    omega
  · simp only [Shared.drop, Function.update_self]
    omega

theorem Shared.Inv.closed {i : Nat} (h : s.Inv) (hi : s.fdt.fds[i]? = some (some d))
    (hlast : s.refs d = 1) : Shared.Inv ⟨s.fdt.closed i d, s.drop d⟩ := by
  have hold : ∀ j d' : Nat, (s.fdt.closed i d).fds[j]? = some (some d') →
      s.fdt.fds[j]? = some (some d') ∧ d' ≠ d := by
    intro j d' hj
    have hji : j ≠ i := by
      rintro rfl
      simp [DfsFdtable.closed, (List.getElem?_eq_some_iff.mp hi).1] at hj
    rw [DfsFdtable.closed, List.getElem?_set_ne (Ne.symm hji)] at hj
    exact ⟨hj, fun heq => hji (h.single j i d (heq ▸ hj) hi)⟩
  have hrefs : ∀ d', d' ≠ d → s.drop d d' = s.refs d' := fun d' hne => Function.update_of_ne hne _ _
  have hnone : s.drop d d = 0 := by simp only [Shared.drop, Function.update_self, hlast, Nat.sub_self]
  refine ⟨?_, fun d' fd hfd => ?_, fun d' hd' => ?_, fun j d' hj => ?_, fun j k d' hj hk => ?_⟩
  · simp only [DfsFdtable.closed, List.length_set]
    exact h.slots
  · simp only [DfsFdtable.closed, Function.update_apply] at hfd
    split at hfd
    · cases hfd
    · next hne =>
      simp only [hrefs d' hne]
      exact h.count d' fd hfd
  · have hne : d' ≠ d := by
      rintro rfl
      simp only [hnone, Nat.lt_irrefl] at hd'
    simp only [hrefs d' hne] at hd'
    obtain ⟨j, hj⟩ := h.listed d' hd'
    have hji : j ≠ i := by
      rintro rfl
      exact hne (Option.some.inj (Option.some.inj (hj.symm.trans hi)))
    exact ⟨j, by simp only [DfsFdtable.closed]; rw [List.getElem?_set_ne (Ne.symm hji), hj]⟩
  · obtain ⟨hj, hne⟩ := hold j d' hj
    simp only [DfsFdtable.closed, Function.update_of_ne hne]
    exact h.allocated j d' hj
  · exact h.single j k d' (hold j d' hj).1 (hold k d' hk).1

end Calls

/-! ### Runs -/

/-- What the calls promise in a state.  A descriptor is live while its structure has references. -/
structure FdContract (s : Shared) : Prop where
  slots : s.fdt.maxfd = s.fdt.fds.length
  live : ∀ d, 0 < s.refs d ↔ ∃ i : Nat, s.fdt.fds[i]? = some (some d)
  single : ∀ (i j d : Nat), s.fdt.fds[i]? = some (some d) → s.fdt.fds[j]? = some (some d) → i = j
  count : ∀ (i d : Nat), s.fdt.fds[i]? = some (some d) →
    ∃ fd, s.fdt.heap d = some fd ∧ fd.ref_count = s.refs d
  new : ∀ memory, ∃ fd fdt', s.fdt.fd_new memory = some (fd, fdt') ∧
    fdt'.maxfd = fdt'.fds.length ∧
    (∀ i d : Nat, s.fdt.fds[i]? = some (some d) → fdt'.fds[i]? = some (some d)) ∧
    (fd = -1 ∧ fdt'.heap = s.fdt.heap ∨
      ∃ i d : Nat, fd = i + DFS_FD_OFFSET ∧ (∀ d', s.fdt.fds[i]? ≠ some (some d')) ∧
        memory.calloc = some d ∧ fdt'.fds[i]? = some (some d) ∧
        ∀ d', d' ≠ d → fdt'.heap d' = s.fdt.heap d')
  get : ∀ fd, ∃ d fdt', s.fdt.fd_get fd = some (d, fdt') ∧ fdt'.maxfd = s.fdt.maxfd ∧
    fdt'.fds = s.fdt.fds ∧ ∀ d', fdt'.heap d' = none ↔ s.fdt.heap d' = none
  put : ∀ d, 0 < s.refs d → ∃ i fdt', s.fdt.fds[i]? = some (some d) ∧
    s.fdt.fd_put d = some fdt' ∧ fdt'.maxfd = s.fdt.maxfd ∧
    (fdt'.heap d = none ↔ s.refs d = 1) ∧
    fdt'.fds = (if s.refs d = 1 then s.fdt.fds.set i none else s.fdt.fds) ∧
    ∀ d', d' ≠ d → fdt'.heap d' = s.fdt.heap d'

section Runs

variable {s s' : Shared}

/-- What a call does to a table and its references. -/
inductive Moves (s : Shared) : Shared → Prop where
  | stay : Moves s s
  | grow (n : Nat) (fdt : DfsFdtable) : Grown s.fdt fdt n → Moves s ⟨fdt, s.refs⟩
  | new (n k d : Nat) (fdt : DfsFdtable) : Grown s.fdt fdt n → fdt.fds[k]? = some none →
      fdt.heap d = none → Moves s ⟨fdt.opened k d, s.take d⟩
  | get (d : Nat) (f : DfsFd) : s.fdt.heap d = some f →
      Moves s ⟨s.fdt.store d { f with ref_count := f.ref_count + 1 }, s.take d⟩
  | put (d : Nat) (f : DfsFd) : s.fdt.heap d = some f → s.refs d ≠ 1 →
      Moves s ⟨s.fdt.store d { f with ref_count := f.ref_count - 1 }, s.drop d⟩
  | release (i d : Nat) : s.fdt.fds[i]? = some (some d) → s.refs d = 1 →
      Moves s ⟨s.fdt.closed i d, s.drop d⟩

theorem Shared.Inv.moves {op : FdOp} (h : s.Inv) (hstep : s.next op = some s') : Moves s s' := by
  cases op with
  | new memory =>
    obtain ⟨n, fdt, hg, hnew | ⟨k, d, hk, hd, hnew⟩⟩ := fd_new_spec h memory
    · simp only [Shared.next, hnew, Option.bind_eq_bind, Option.bind_some] at hstep
      obtain ⟨-, hstep⟩ := Option.ite_none_left_eq_some.mp hstep
      obtain rfl := Option.some.inj hstep
      exact .grow n fdt hg
    · simp only [Shared.next, hnew, Option.bind_eq_bind, Option.bind_some] at hstep
      obtain ⟨hfresh, hstep⟩ := Option.ite_none_left_eq_some.mp hstep
      obtain rfl := Option.some.inj hstep
      have hnone : fdt.heap d = none := by
        rw [hg.heap]
        simpa [hd] using hfresh
      have hstruct : structOf (fdt.opened k d) (k + DFS_FD_OFFSET) = some d := by
        have hidx : ((k : Int) + DFS_FD_OFFSET - DFS_FD_OFFSET).toNat = k := by omega
        have hpos : ¬(k : Int) + DFS_FD_OFFSET < 0 := by
          simp only [DFS_FD_OFFSET]
          omega
        rw [structOf, if_neg hpos, hidx, opened_entry hk]
        rfl
      rw [hstruct]
      exact .new n k d fdt hg hk hnone
  | get fd =>
    rcases fd_get_spec h fd with ⟨hget, -⟩ | ⟨i, d, f, -, -, hf, hget⟩
    · simp only [Shared.next, hget, Option.bind_eq_bind, Option.bind_some] at hstep
      obtain rfl := Option.some.inj hstep
      exact .stay
    · simp only [Shared.next, hget, Option.bind_eq_bind, Option.bind_some] at hstep
      obtain rfl := Option.some.inj hstep
      exact .get d f hf
  | put d =>
    obtain ⟨hpos, hstep⟩ := Option.ite_none_left_eq_some.mp hstep
    obtain ⟨i, f, hi, hf, hput⟩ := fd_put_spec h (Nat.pos_of_ne_zero hpos)
    rw [hput] at hstep
    obtain rfl := Option.some.inj hstep
    split
    · next hlast => exact .release i d hi hlast
    · next hmore => exact .put d f hf hmore

theorem Shared.Inv.next {op : FdOp} (h : s.Inv) (hstep : s.next op = some s') : s'.Inv := by
  cases h.moves hstep with
  | stay => exact h
  | grow n fdt hg => exact h.grown hg
  | new n k d fdt hg hk hd => exact (h.grown hg).opened hk hd
  | get d f hf => exact h.taken hf
  | put d f hf hmore => exact h.dropped hf hmore
  | release i d hi hlast => exact h.closed hi hlast

/-- A structure that is there after a call was there before it, or is new; only the count differs. -/
theorem Moves.kept (h : Moves s s') {d : Nat} {f' : DfsFd} (hf' : s'.fdt.heap d = some f') :
    (∃ f, s.fdt.heap d = some f ∧ f'.path = f.path ∧ f'.fs = f.fs ∧ f'.fops = f.fops) ∨
      s.fdt.heap d = none ∧ f'.path = none := by
  have hstore : ∀ (e : Nat) (f g : DfsFd), s.fdt.heap e = some f → g.path = f.path → g.fs = f.fs →
      g.fops = f.fops → (s.fdt.store e g).heap d = some f' →
      ∃ f, s.fdt.heap d = some f ∧ f'.path = f.path ∧ f'.fs = f.fs ∧ f'.fops = f.fops := by
    intro e f g hf hpath hfs hfops hd
    simp only [DfsFdtable.store, Function.update_apply] at hd
    split at hd
    · next heq =>
      obtain rfl := Option.some.inj hd
      exact ⟨f, heq ▸ hf, hpath, hfs, hfops⟩
    · exact ⟨f', hd, rfl, rfl, rfl⟩
  cases h with
  | stay => exact Or.inl ⟨f', hf', rfl, rfl, rfl⟩
  | grow n fdt hg => exact Or.inl ⟨f', hg.heap ▸ hf', rfl, rfl, rfl⟩
  | new n k e fdt hg hk he =>
    simp only [DfsFdtable.opened, Function.update_apply] at hf'
    split at hf'
    · next heq =>
      obtain rfl := Option.some.inj hf'
      exact Or.inr ⟨by rw [← hg.heap, heq, he], rfl⟩
    · exact Or.inl ⟨f', hg.heap ▸ hf', rfl, rfl, rfl⟩
  | get e f hf => exact Or.inl (hstore e f { f with ref_count := f.ref_count + 1 } hf rfl rfl rfl hf')
  | put e f hf hmore =>
    exact Or.inl (hstore e f { f with ref_count := f.ref_count - 1 } hf rfl rfl rfl hf')
  | release i e hi hlast =>
    simp only [DfsFdtable.closed, Function.update_apply] at hf'
    split at hf'
    · cases hf'
    · exact Or.inl ⟨f', hf', rfl, rfl, rfl⟩

theorem reachable_inv (hr : fdTable.Reachable s) : s.Inv := by
  refine hr.invariant ?_ fun s op s' _ h hstep => h.next hstep
  rintro _ rfl
  refine ⟨rfl, fun d fd hfd => ?_, fun d hd => absurd hd (Nat.lt_irrefl 0), fun i d hi => ?_,
    fun i j d hi => ?_⟩
  · cases hfd
  · simp at hi
  · simp at hi

/-- In every run, the calls keep their promises. -/
theorem fd_table (hr : fdTable.Reachable s) : FdContract s := by
  have h := reachable_inv hr
  refine ⟨h.slots, fun d => ⟨h.listed d, fun ⟨i, hi⟩ => ?_⟩, h.single, fun i d hi => ?_,
    fun memory => ?_, fun fd => ?_, fun d hd => ?_⟩
  · obtain ⟨fd, hfd⟩ := h.allocated i d hi
    exact (h.count d fd hfd).2.1
  · obtain ⟨fd, hfd⟩ := h.allocated i d hi
    exact ⟨fd, hfd, (h.count d fd hfd).1⟩
  · obtain ⟨n, fdt, hg, hnew | ⟨k, d, hk, hd, hnew⟩⟩ := fd_new_spec h memory
    · exact ⟨-1, fdt, hnew, hg.slots, fun i d hi => hg.entry hi, Or.inl ⟨rfl, hg.heap⟩⟩
    · refine ⟨_, _, hnew, ?_, fun i d' hi => opened_other hk (hg.entry hi),
        Or.inr ⟨k, d, rfl, fun d' hi => ?_, hd, opened_entry hk, fun d' hne => ?_⟩⟩
      · simp only [DfsFdtable.opened, List.length_set]
        exact hg.slots
      · have hnew := hg.entry hi
        rw [hk] at hnew
        cases hnew
      · simp only [DfsFdtable.opened, Function.update_of_ne hne, hg.heap]
  · rcases fd_get_spec h fd with ⟨hget, -⟩ | ⟨i, d, f, -, -, hf, hget⟩
    · exact ⟨_, _, hget, rfl, rfl, fun d' => Iff.rfl⟩
    · refine ⟨_, _, hget, rfl, rfl, fun d' => ?_⟩
      by_cases heq : d' = d
      · subst heq
        simp [DfsFdtable.store, hf]
      · simp only [DfsFdtable.store, Function.update_of_ne heq]
  · obtain ⟨i, f, hi, hf, hput⟩ := fd_put_spec h hd
    refine ⟨i, _, hi, hput, ?_, ?_, ?_, fun d' hne => ?_⟩
    · split <;> rfl
    · split
      · next hlast => simp [DfsFdtable.closed, hlast]
      · next hmore => simp [DfsFdtable.store, hmore]
    · split
      · next hlast => rfl
      · next hmore => rfl
    · split
      · simp only [DfsFdtable.closed, Function.update_of_ne hne]
      · simp only [DfsFdtable.store, Function.update_of_ne hne]

/-- A descriptor is opened, and another one cannot be. -/
theorem fd_table_opened : ∃ s, fdTable.Reachable s ∧ FdContract s ∧ s.refs 7 = 2 := by
  have hw : Machine.runs Shared.next ⟨⟨0, [], fun _ => none⟩, fun _ => 0⟩
      [.new ⟨true, some 7⟩, .get 3, .new ⟨false, none⟩] = some _ := rfl
  have hr := (Machine.Reachable.start (M := fdTable) rfl).runs (fun _ _ _ h => h) hw
  exact ⟨_, hr, fd_table hr, rfl⟩

end Runs

end Ab32Vg1.Dfs
