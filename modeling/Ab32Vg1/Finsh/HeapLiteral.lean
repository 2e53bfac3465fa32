import Ab32Vg1.Finsh.HeapRun
import Mathlib.Data.List.Induction

/-! `finsh_node_new_string` with the heap that it allocates from, and the string literals of a line: when
their blocks last until the line is parsed. -/

namespace Ab32Vg1.Finsh.Heap

open ProofKit ProofKit.Tiling Kernel

/-! ### Parsing -/

/-- A string literal, as the token has it: a C string of at most the token's buffer. -/
structure Text where
  chars : List UInt8
  no_nul : 0 ∉ chars
  fits : chars.length ≤ FINSH_STRING_MAX

/-- An error code of `finsh_error.h`. -/
abbrev Errno := { errno : Nat // errno ≠ FINSH_ERROR_OK }

/-- What the parser of a line and the heap share: the variables, the nodes taken from the pool,
`global_errno`, and `value.ptr` of each string-literal node with the literal it is made for. -/
structure Parse where
  heap : Heap
  vars : Variables
  nodes : Nat
  errno : Nat
  strings : List (Nat × List UInt8)

/-- The node for a literal that is copied to `ptr`, which was allocated in `heap`. -/
def Parse.copied (w : Parse) (heap : Heap) (ptr : Nat) (s : List UInt8) : Parse :=
  let bytes := heap.bytes.put ptr s
  let bytes := bytes.put (ptr + s.length) [0]
  { w with
    heap := { heap with bytes }
    nodes := w.nodes + 1
    strings := w.strings ++ [(ptr, s)] }

/-- `finsh_node_new_string`, whose loops take at most a turn for each byte of the arena, and one. It has
no value where the literal is copied to `NULL`. -/
def finsh_node_new_string (s : List UInt8) (w : Parse) : Option Parse :=
  if FINSH_NODE_MAX ≤ w.nodes then some { w with errno := FINSH_ERROR_MEMORY_FULL }
  else do
    let (heap, ptr) ← finsh_heap_allocate (FINSH_HEAP_MAX + 1) w.vars w.heap (s.length + 1)
    if ptr = 0 then none else some (w.copied heap ptr s)

/-- What the parser does, of all that matters to the heap: it makes a node for a string literal, it makes
another node, with the error it sets when the pool is used up, it declares a variable, whose entry keeps
its value, or it sets an error. -/
inductive Act where
  | literal (s : Text)
  | node (full : Errno)
  | declare (i : Fin FINSH_VARIABLE_MAX) (type : FinshType)
  | error (errno : Errno)

def Act.step (w : Parse) : Act → Option Parse
  | .literal s => finsh_node_new_string s.chars w
  | .node full =>
    some (if w.nodes < FINSH_NODE_MAX then { w with nodes := w.nodes + 1 } else { w with errno := full })
  | .declare i type =>
    some (if (w.vars i).type = .unknown then
      { w with vars := Function.update w.vars i { type, ptr := (w.vars i).ptr } } else w)
  | .error errno => some { w with errno }

/-- The literal that an action makes a node for. -/
def Act.text : Act → Option (List UInt8)
  | .literal s => some s.chars
  | _ => none

/-- A line is parsed, from a heap in any state it can reach and with any variables. -/
structure Start (a : Arena) where
  heap : Heap
  vars : Variables
  reachable : ∃ bytes, (machine a bytes).Reachable heap

namespace Start

variable {a : Arena} (start : Start a)

/-- The state that `finsh_flush` leaves for the line. -/
def parse : Parse :=
  { heap := start.heap
    vars := start.vars
    nodes := 0
    errno := FINSH_ERROR_OK
    strings := [] }

/-- The state after the actions of the parser. -/
def run (acts : List Act) : Option Parse := Machine.runs Act.step start.parse acts

/-- Each literal is in an allocated block with its `NUL`, in a block of its own, and the blocks that the
variables held before the line are allocated and others. -/
structure Kept (texts : List (List UInt8)) (w : Parse) : Prop where
  nodes : w.strings.map Prod.snd = texts
  held : ∀ x ∈ w.strings, ∃ p, x.1 = finsh_block_get_data p ∧ IsAllocated w.heap p ∧
    x.2.length + 1 ≤ length w.heap.bytes p ∧
    w.heap.bytes.range x.1 (x.2.length + 1) = x.2 ++ [0]
  distinct : (w.strings.map Prod.fst).Nodup
  vars_apart : ∀ p, IsAllocated start.heap p → Referenced start.vars (finsh_block_get_data p) →
    IsAllocated w.heap p ∧ finsh_block_get_data p ∉ w.strings.map Prod.fst

/-- The literals are intact after the actions, or an error keeps the line from running. -/
def Intact (acts : List Act) : Prop :=
  ∃ w, start.run acts = some w ∧
    (w.errno ≠ FINSH_ERROR_OK ∨ start.Kept (acts.filterMap Act.text) w)

end Start

/-! ### Literals that last -/

/-- A free block is larger than a request for `size` bytes takes. -/
def Roomy (h : Heap) (size : Nat) : Prop :=
  ∃ q, IsFree h q ∧ HEAP_ALIGN_SIZE size + SIZEOF_HEADER < length h.bytes q

/-- The blocks that the variables hold leave a gap for a request for `size` bytes, with the header of its
block and that of the rest. -/
def Gap (a : Arena) (h : Heap) (vars : Variables) (size : Nat) : Prop :=
  ∃ lo, a.finsh_heap ≤ lo ∧
    lo + HEAP_ALIGN_SIZE size + 2 * SIZEOF_HEADER ≤ a.finsh_heap + FINSH_HEAP_MAX ∧
    ∀ q, IsAllocated h q → Referenced vars (finsh_block_get_data q) →
      behind h.bytes q ≤ lo ∨ lo + HEAP_ALIGN_SIZE size + 2 * SIZEOF_HEADER ≤ q

/-- When the node of a literal can be made without harm: there is room without a collection, or there is
room behind one, and the variables hold all literals before it or an error is set. -/
def Safe (a : Arena) (w : Parse) : Act → Prop
  | .literal s => w.nodes < FINSH_NODE_MAX →
    Roomy w.heap (s.chars.length + 1) ∨
    (Gap a w.heap w.vars (s.chars.length + 1) ∧
      (w.errno = FINSH_ERROR_OK → ∀ x ∈ w.strings, Referenced w.vars x.1))
  | _ => True

/-- Every action of a line is safe in the state that the actions before it leave. -/
def Start.AllSafe {a : Arena} (start : Start a) (acts : List Act) : Prop :=
  ∀ before act after, acts = before ++ act :: after → ∀ w, start.run before = some w → Safe a w act

section

variable {a : Arena} {h h1 : Heap} {bs bs1 bs' : List Blk} {vars : Variables} {p n : Nat}

/-! ### Room in terms of blocks -/

theorem HEAP_ALIGN_SIZE_text (s : Text) :
    HEAP_ALIGN_SIZE (s.chars.length + 1) = (s.chars.length + 4) / 4 * 4 := by
  have := s.fits
  rw [FINSH_STRING_MAX] at this
  exact HEAP_ALIGN_SIZE_eq (by omega)

theorem Holds.roomy_iff (size : Nat) (hh : Holds a.finsh_heap h bs) :
    Roomy h size ↔ ∃ q x, (q, x) ∈ blocksOf false a.finsh_heap bs ∧ HEAP_ALIGN_SIZE size + 16 < x.size := by
  rw [Roomy, SIZEOF_HEADER_eq]
  constructor
  · rintro ⟨q, hq, hlarge⟩
    obtain ⟨x, hx⟩ := mem_marked.mp (hh.isFree_iff.mp hq)
    have hlength := hh.sizes q x hx.1
    rw [SIZEOF_HEADER_eq] at hlength
    exact ⟨q, x, mem_blocksOf.mpr hx, by omega⟩
  · rintro ⟨q, x, hx, hlarge⟩
    have hlength := hh.sizes q x (mem_blocksOf.mp hx).1
    rw [SIZEOF_HEADER_eq] at hlength
    exact ⟨q, hh.isFree_iff.mpr (List.mem_map_of_mem hx), by omega⟩

/-- The blocks that a collection keeps. -/
theorem Collected.mem_iff {x : Nat × Blk} (hc : Collected a.finsh_heap vars h bs h1 bs1) :
    x ∈ blocksOf true a.finsh_heap bs1 ↔
      x ∈ blocksOf true a.finsh_heap bs ∧ Referenced vars (finsh_block_get_data x.1) := by
  rw [hc.2.1, List.mem_filter, decide_eq_true_iff]

/-- A collection leaves a block for a request exactly when the blocks that it keeps leave a gap. -/
theorem Collected.gap_iff (size : Nat) (hc : Collected a.finsh_heap vars h bs h1 bs1)
    (hh : Holds a.finsh_heap h bs) :
    Gap a h vars size ↔
      ∃ q x, (q, x) ∈ blocksOf false a.finsh_heap bs1 ∧ HEAP_ALIGN_SIZE size + 16 ≤ x.size := by
  have htotal := hc.1.total_eq
  rw [Gap, SIZEOF_HEADER_eq]
  constructor
  · rintro ⟨lo, hlo, hhi, hgap⟩
    obtain ⟨q, x, hx, hfree, hle, hge⟩ := hc.1.coalesced.inFree_of_gap
      (show lo < lo + HEAP_ALIGN_SIZE size + 2 * 8 by omega) hlo (htotal ▸ hhi) fun q x hx => by
        obtain ⟨hold, href⟩ := hc.mem_iff.mp hx
        have hkept := hgap q (hh.isAllocated_iff.mpr (List.mem_map_of_mem hold)) href
        rw [hh.behind (mem_blocksOf.mp hold).1] at hkept
        exact hkept
    exact ⟨q, x, mem_blocksOf.mpr ⟨hx, hfree⟩, by omega⟩
  · rintro ⟨q, x, hx, hlarge⟩
    obtain ⟨hplaced, hfree⟩ := mem_blocksOf.mp hx
    have hle := placed_le hplaced
    rw [htotal] at hle
    refine ⟨q, hle.1, by omega, fun r hr href => ?_⟩
    obtain ⟨y, hy⟩ := hh.allocated_block hr
    obtain ⟨hyplaced, hyused⟩ := mem_blocksOf.mp (hc.mem_iff.mpr ⟨hy, href⟩)
    have hne : r ≠ q := by
      rintro rfl
      rw [placed_unique (by decide) hyplaced hplaced, hfree] at hyused
      cases hyused
    have := placed_disjoint hyplaced hplaced hne
    rw [hh.behind (mem_blocksOf.mp hy).1]
    omega

/-! ### A node for a literal -/

/-- What a node for a literal `s` leaves, with the block `p` for it: `kept` are the blocks that were there
before it was allocated. -/
structure Made (base : Nat) (w : Parse) (s : List UInt8) (kept : List Blk) (p : Nat) (w' : Parse)
    (bs' : List Blk) : Prop where
  holds : Holds base w'.heap bs'
  fresh : p ∉ marked true base kept
  block : ∃ c, s.length + 9 ≤ c.size ∧ ∀ x, x ∈ blocksOf true base bs' ↔
    x = (p, c) ∨ x ∈ blocksOf true base kept
  keeps : KeepsData base kept w.heap.bytes w'.heap.bytes
  text : w'.heap.bytes.range (finsh_block_get_data p) (s.length + 1) = s ++ [0]
  vars : w'.vars = w.vars
  errno : w'.errno = w.errno
  strings : w'.strings = w.strings ++ [(finsh_block_get_data p, s)]

/-- The literal is copied into the block that was found for it. -/
theorem Occupied.made {base : Nat} {w : Parse} {s : List UInt8} {b : Blk} {h' : Heap} {bs' : List Blk}
    (ho : Occupied base n h1 bs1 p h' bs') (hp : (p, b) ∈ blocksOf false base bs1)
    (hn : s.length + 1 ≤ n) (hnb : n + 16 ≤ b.size) (hkeeps : KeepsData base bs1 w.heap.bytes h1.bytes) :
    Made base w s bs1 p (w.copied h' (p + 8) s) bs' := by
  obtain ⟨c, hc, hblocks⟩ := ho.blocks
  have hplaced : (p, c) ∈ placed base bs' := (mem_blocksOf.mp ((hblocks (p, c)).mpr (Or.inl rfl))).1
  have hlen : (s ++ [0]).length = s.length + 1 := by simp
  have hput {lo hi : Nat} (hout : hi ≤ p + 8 ∨ p + 8 + (s.length + 1) ≤ lo) :
      h'.bytes.AgreeOn (h'.bytes.put (p + 8) (s ++ [0])) lo hi :=
    Bytes.put_agreeOn (by rw [hlen]; exact hout)
  have hbytes : (w.copied h' (p + 8) s).heap.bytes = h'.bytes.put (p + 8) (s ++ [0]) :=
    Bytes.put_put _ _ _ _
  refine ⟨⟨?_, ho.holds.coalesced, ho.holds.last_free⟩, ?_, ⟨c, by omega, hblocks⟩, ?_, ?_, rfl, rfl,
    rfl⟩
  · rw [hbytes]
    refine ho.holds.toTiled.congr_bytes fun x hx => hput ?_
    have := starts_outside hx hplaced
    omega
  · exact marked_disjoint (by decide) (List.mem_map_of_mem hp)
  · have hwrite : KeepsData base bs1 h'.bytes (h'.bytes.put (p + 8) (s ++ [0])) :=
      KeepsData.of_inside hp fun i hi => hput (by omega) i (le_refl i) (Nat.lt_succ_self i)
    rw [hbytes]
    exact (hkeeps.trans ho.keeps).trans hwrite
  · rw [hbytes, finsh_block_get_data, SIZEOF_HEADER_eq, ← hlen]
    exact Bytes.range_put _ _ _

/-- What `finsh_node_new_string` does with a node left: it finds room, it collects and finds room, or it
collects in vain and copies to `NULL`. -/
inductive NewString (a : Arena) (w : Parse) (s : List UInt8) (bs : List Blk) : Option Parse → Prop
  | room {p w' bs'} (hroom : Roomy w.heap (s.length + 1))
    (hm : Made a.finsh_heap w s bs p w' bs') : NewString a w s bs (some w')
  | collected {h1 bs1 p w' bs'} (hroom : ¬Roomy w.heap (s.length + 1))
    (hgap : Gap a w.heap w.vars (s.length + 1))
    (hc : Collected a.finsh_heap w.vars w.heap bs h1 bs1)
    (hm : Made a.finsh_heap w s bs1 p w' bs') : NewString a w s bs (some w')
  | null (hroom : ¬Roomy w.heap (s.length + 1)) (hgap : ¬Gap a w.heap w.vars (s.length + 1)) :
    NewString a w s bs none

theorem Holds.new_string {w : Parse} (hh : Holds a.finsh_heap w.heap bs) (s : Text)
    (hnodes : w.nodes < FINSH_NODE_MAX) :
    NewString a w s.chars bs (finsh_node_new_string s.chars w) := by
  have hfits := s.fits
  rw [FINSH_STRING_MAX] at hfits
  have hsize := HEAP_ALIGN_SIZE_text s
  have halloc := hh.allocate w.vars (show s.chars.length + 1 + 12 ≤ 2 ^ 32 by omega)
  obtain ⟨⟨h', ptr⟩, hrun⟩ := halloc.total (Nat.lt_succ_self FINSH_HEAP_MAX)
  obtain ⟨bs', ha⟩ := halloc.post hrun
  have hresult : finsh_node_new_string s.chars w =
      if ptr = 0 then none else some (w.copied h' ptr s.chars) := by
    rw [finsh_node_new_string, if_neg (Nat.not_le.mpr hnodes), hrun]
    rfl
  have hroomy := hh.roomy_iff (s.chars.length + 1)
  rw [hsize] at hroomy
  have hfull (hnone : ∀ q x, (q, x) ∈ blocksOf false a.finsh_heap bs →
      x.size ≤ (s.chars.length + 1 + 3) / 4 * 4 + 16) : ¬Roomy w.heap (s.chars.length + 1) := by
    rw [hroomy]
    rintro ⟨q, x, hx, hlarge⟩
    have := hnone q x hx
    omega
  have hgap {h1 : Heap} {bs1 : List Blk} (hc : Collected a.finsh_heap w.vars w.heap bs h1 bs1) :=
    hc.gap_iff (s.chars.length + 1) hh
  rw [hresult]
  cases ha with
  | found hp hlarge ho =>
    rw [if_neg (Nat.succ_ne_zero _)]
    refine NewString.room (hroomy.mpr ⟨_, _, hp, by omega⟩) (ho.made hp (by omega) (by omega) ?_)
    exact KeepsData.refl _ _ _
  | collected hnone hc hp hlarge ho =>
    rw [if_neg (Nat.succ_ne_zero _)]
    exact NewString.collected (hfull hnone) ((hgap hc).mpr ⟨_, _, hp, by omega⟩) hc
      (ho.made hp (by omega) (by omega) hc.2.2)
  | full hnone hc hsmall =>
    rw [if_pos rfl]
    refine NewString.null (hfull hnone) ?_
    rw [hgap hc]
    rintro ⟨q, x, hx, hlarge⟩
    have := hsmall q x hx
    omega

/-! ### Steps of the parser -/

/-- The blocks that a node for a literal must find as they were: those of the literals before it and
those that a variable holds. -/
def Spares (base : Nat) (w : Parse) (bs bs1 : List Blk) : Prop :=
  ∀ x ∈ blocksOf true base bs,
    Referenced w.vars (finsh_block_get_data x.1) ∨ finsh_block_get_data x.1 ∈ w.strings.map Prod.fst →
    x ∈ blocksOf true base bs1

theorem Collected.spares {w : Parse} (hc : Collected a.finsh_heap w.vars w.heap bs h1 bs1)
    (hheld : ∀ x ∈ w.strings, Referenced w.vars x.1) : Spares a.finsh_heap w bs bs1 := by
  intro x hx hneed
  refine hc.mem_iff.mpr ⟨hx, hneed.elim id fun hmem => ?_⟩
  obtain ⟨y, hy, heq⟩ := List.mem_map.mp hmem
  exact heq ▸ hheld y hy

theorem finsh_block_get_data_inj {q : Nat} (h : finsh_block_get_data p = finsh_block_get_data q) :
    p = q := Nat.add_right_cancel h

section

variable {start : Start a} {texts : List (List UInt8)} {w w' : Parse} {s : List UInt8}

/-- A node for one more literal keeps those before it, where their blocks were spared. -/
theorem Start.Kept.made (hk : start.Kept texts w) (hh : Holds a.finsh_heap w.heap bs)
    (hgrows : ∀ d, Referenced start.vars d → Referenced w.vars d) (hs : Spares a.finsh_heap w bs bs1)
    (hm : Made a.finsh_heap w s bs1 p w' bs') : start.Kept (texts ++ [s]) w' := by
  obtain ⟨c, hc, hblocks⟩ := hm.block
  have hnew : (p, c) ∈ blocksOf true a.finsh_heap bs' := (hblocks (p, c)).mpr (Or.inl rfl)
  -- a block that is needed is still allocated, and it is not the one of the new literal
  have hold {q : Nat} (hq : IsAllocated w.heap q)
      (hneed : Referenced w.vars (finsh_block_get_data q) ∨
        finsh_block_get_data q ∈ w.strings.map Prod.fst) :
      ∃ b, (q, b) ∈ blocksOf true a.finsh_heap bs ∧ (q, b) ∈ blocksOf true a.finsh_heap bs1 ∧ q ≠ p := by
    obtain ⟨b, hb⟩ := hh.allocated_block hq
    have hb1 := hs (q, b) hb hneed
    exact ⟨b, hb, hb1, fun heq => hm.fresh (heq ▸ List.mem_map_of_mem hb1)⟩
  have hallocated {x : Nat × Blk} (hx : x ∈ blocksOf true a.finsh_heap bs') : IsAllocated w'.heap x.1 :=
    hm.holds.isAllocated_iff.mpr (List.mem_map_of_mem hx)
  have hlength {x : Nat × Blk} {g : Heap} {cs : List Blk} (hg : Holds a.finsh_heap g cs)
      (hx : x ∈ blocksOf true a.finsh_heap cs) : length g.bytes x.1 + 8 = x.2.size :=
    hg.sizes x.1 x.2 (mem_blocksOf.mp hx).1
  have hfresh : finsh_block_get_data p ∉ w.strings.map Prod.fst := by
    intro hmem
    obtain ⟨x, hx, heq⟩ := List.mem_map.mp hmem
    obtain ⟨q, hq, halloc, -⟩ := hk.held x hx
    have hqp := finsh_block_get_data_inj (hq.symm.trans heq)
    obtain ⟨-, -, -, hne⟩ := hold halloc (Or.inr (hqp ▸ hmem))
    exact hne hqp
  refine ⟨?_, fun x hx => ?_, ?_, fun q hq href => ?_⟩
  · rw [hm.strings, List.map_append, hk.nodes]
    rfl
  · rw [hm.strings, List.mem_append, List.mem_singleton] at hx
    rcases hx with hx | rfl
    · obtain ⟨q, hq, halloc, hroom, hrange⟩ := hk.held x hx
      obtain ⟨b, hb, hb1, -⟩ := hold halloc (Or.inr (hq ▸ List.mem_map_of_mem hx))
      have hb' := (hblocks (q, b)).mpr (Or.inr hb1)
      have hl := hlength hh hb
      have hl' := hlength hm.holds hb'
      refine ⟨q, hq, hallocated hb', by dsimp only at hl hl'; omega, ?_⟩
      rw [← hrange]
      refine Bytes.range_congr ((hm.keeps q b hb1).mono (le_of_eq hq.symm) ?_)
      rw [hq, finsh_block_get_data, SIZEOF_HEADER_eq]
      dsimp only at hl
      omega
    · have hl := hlength hm.holds hnew
      exact ⟨p, rfl, hallocated hnew, by dsimp only at hl ⊢; omega, hm.text⟩
  · rw [hm.strings, List.map_append]
    refine List.nodup_append.mpr ⟨hk.distinct, List.nodup_singleton _, fun x hx y hy => ?_⟩
    rintro rfl
    have hy : x = finsh_block_get_data p := List.mem_singleton.mp hy
    exact hfresh (hy ▸ hx)
  · obtain ⟨halloc, hapart⟩ := hk.vars_apart q hq href
    obtain ⟨b, -, hb1, hne⟩ := hold halloc (Or.inl (hgrows _ href))
    refine ⟨hallocated ((hblocks (q, b)).mpr (Or.inr hb1)), ?_⟩
    rw [hm.strings, List.map_append, List.mem_append, List.map_singleton, List.mem_singleton]
    rintro (hmem | heq)
    · exact hapart hmem
    · exact hne (finsh_block_get_data_inj heq)

/-- A node for a literal whose block took the place of one before it, or that lost one before it. -/
theorem Start.Kept.spared (hk : start.Kept (texts ++ [s]) w')
    (hc : Collected a.finsh_heap w.vars w.heap bs h1 bs1) (hm : Made a.finsh_heap w s bs1 p w' bs') :
    ∀ x ∈ w.strings, Referenced w.vars x.1 := by
  intro x hx
  obtain ⟨c, hc', hblocks⟩ := hm.block
  obtain ⟨q, hq, halloc, -⟩ := hk.held x (hm.strings ▸ List.mem_append_left _ hx)
  obtain ⟨b, hb⟩ := hm.holds.allocated_block halloc
  rcases (hblocks (q, b)).mp hb with heq | hb1
  · obtain ⟨rfl, -⟩ := Prod.mk.inj heq
    have hdistinct := hk.distinct
    rw [hm.strings, List.map_append] at hdistinct
    obtain ⟨-, -, hapart⟩ := List.nodup_append.mp hdistinct
    exact absurd hq (hapart x.1 (List.mem_map_of_mem hx) _ (List.mem_singleton_self _))
  · exact hq ▸ (hc.mem_iff.mp hb1).2

/-- A line under way: the heap is as it should be, the parser has taken no variable's block from it, and
the literals are intact or an error is set. -/
structure Good (start : Start a) (texts : List (List UInt8)) (w : Parse) (bs : List Blk) : Prop where
  holds : Holds a.finsh_heap w.heap bs
  grows : ∀ d, Referenced start.vars d → Referenced w.vars d
  kept : w.errno ≠ FINSH_ERROR_OK ∨ start.Kept texts w

theorem Good.init (start : Start a) : ∃ bs, Good start [] start.parse bs := by
  obtain ⟨bytes, hr⟩ := start.reachable
  obtain ⟨bs, hh⟩ := reachable_holds hr
  refine ⟨bs, hh, fun _ h => h, Or.inr ⟨rfl, fun x hx => ?_, List.nodup_nil, fun p hp _ => ?_⟩⟩
  · exact absurd hx List.not_mem_nil
  · exact ⟨hp, List.not_mem_nil⟩

/-- An action that sets an error. -/
theorem Good.failed {texts' : List (List UInt8)} (hg : Good start texts w bs) (hheap : w'.heap = w.heap)
    (hvars : w'.vars = w.vars) (herr : w'.errno ≠ FINSH_ERROR_OK) : Good start texts' w' bs :=
  ⟨hheap ▸ hg.holds, hvars ▸ hg.grows, Or.inl herr⟩

/-- An action that leaves the heap, the literals and `global_errno` as they were. -/
theorem Good.same (hg : Good start texts w bs) (hheap : w'.heap = w.heap)
    (hvars : ∀ d, Referenced w.vars d → Referenced w'.vars d) (herr : w'.errno = w.errno)
    (hstrings : w'.strings = w.strings) : Good start texts w' bs := by
  refine ⟨hheap ▸ hg.holds, fun d hd => hvars d (hg.grows d hd), ?_⟩
  rw [herr]
  refine hg.kept.imp id fun hk => ⟨hstrings ▸ hk.nodes, ?_, hstrings ▸ hk.distinct, ?_⟩
  · rw [hstrings, hheap]
    exact hk.held
  · rw [hstrings, hheap]
    exact hk.vars_apart

/-- Declaring a variable keeps what the others hold. -/
theorem referenced_update {i : Fin FINSH_VARIABLE_MAX} {type : FinshType} {d : Nat}
    (hfree : (vars i).type = .unknown) (h : Referenced vars d) :
    Referenced (Function.update vars i { type, ptr := (vars i).ptr }) d := by
  obtain ⟨j, hj, hd⟩ := h
  have hne : j ≠ i := fun heq => hj (heq ▸ hfree)
  exact ⟨j, by rw [Function.update_of_ne hne]; exact ⟨hj, hd⟩⟩

/-- A safe action returns, and keeps the literals intact. -/
theorem Good.step (hg : Good start texts w bs) (act : Act) (hsafe : Safe a w act) :
    ∃ w' bs', act.step w = some w' ∧ Good start (texts ++ act.text.toList) w' bs' := by
  cases act with
  | literal s =>
    by_cases hnodes : w.nodes < FINSH_NODE_MAX
    · have hsafe := hsafe hnodes
      have hnew := hg.holds.new_string s hnodes
      have hgood {bs1 bs' : List Blk} {p : Nat} {w' : Parse} (hm : Made a.finsh_heap w s.chars bs1 p w' bs')
          (hs : w.errno = FINSH_ERROR_OK → Spares a.finsh_heap w bs bs1) :
          Good start (texts ++ [s.chars]) w' bs' := by
        refine ⟨hm.holds, hm.vars ▸ hg.grows, ?_⟩
        rw [hm.errno]
        refine (em (w.errno = FINSH_ERROR_OK)).symm.imp id fun hok => ?_
        exact (hg.kept.resolve_left (not_not.mpr hok)).made hg.holds hg.grows (hs hok) hm
      generalize hresult : finsh_node_new_string s.chars w = result at hnew
      cases hnew with
      | room hroom hm => exact ⟨_, _, hresult, hgood hm fun _ _ hx _ => hx⟩
      | collected hroom hgap hc hm =>
        obtain ⟨-, hheld⟩ := hsafe.resolve_left hroom
        exact ⟨_, _, hresult, hgood hm fun hok => hc.spares (hheld hok)⟩
      | null hroom hgap => exact absurd (hsafe.resolve_left hroom).1 hgap
    · have hresult : Act.step w (.literal s) = some { w with errno := FINSH_ERROR_MEMORY_FULL } :=
        if_pos (Nat.not_lt.mp hnodes)
      have herr : FINSH_ERROR_MEMORY_FULL ≠ FINSH_ERROR_OK := by decide
      exact ⟨_, bs, hresult, hg.failed rfl rfl herr⟩
  | node full =>
    refine ⟨_, bs, rfl, ?_⟩
    split
    · change Good start (texts ++ []) _ _
      rw [List.append_nil]
      exact hg.same rfl (fun _ h => h) rfl rfl
    · exact hg.failed rfl rfl full.2
  | declare i type =>
    refine ⟨_, bs, rfl, ?_⟩
    change Good start (texts ++ []) _ _
    rw [List.append_nil]
    split
    · next hfree => exact hg.same rfl (fun d hd => referenced_update hfree hd) rfl rfl
    · exact hg
  | error errno => exact ⟨_, bs, rfl, hg.failed rfl rfl errno.2⟩

/-- An unsafe action loses a literal, or copies one to `NULL`. -/
theorem Good.lost (hg : Good start texts w bs) (act : Act) (hbad : ¬Safe a w act) :
    ¬∃ w', act.step w = some w' ∧
      (w'.errno ≠ FINSH_ERROR_OK ∨ start.Kept (texts ++ act.text.toList) w') := by
  rintro ⟨w', hstep, hintact⟩
  cases act with
  | literal s =>
    refine hbad fun hnodes => ?_
    have hnew := hg.holds.new_string s hnodes
    have hresult : finsh_node_new_string s.chars w = some w' := hstep
    rw [hresult] at hnew
    cases hnew with
    | room hroom hm => exact Or.inl hroom
    | collected hroom hgap hc hm =>
      rw [hm.errno] at hintact
      exact Or.inr ⟨hgap, fun hok => (hintact.resolve_left (not_not.mpr hok)).spared hc hm⟩
  | node full => exact hbad trivial
  | declare i type => exact hbad trivial
  | error errno => exact hbad trivial

end

end

/-! ### Lines -/

section

variable {a : Arena} {start : Start a} {acts : List Act} {act : Act}

theorem Start.run_concat :
    start.run (acts ++ [act]) = (start.run acts).bind fun w => act.step w :=
  Machine.runs_concat _ _ _ _

theorem Start.AllSafe.front {pre : List Act} (h : start.AllSafe acts) (hpre : pre <+: acts) :
    start.AllSafe pre := by
  obtain ⟨rest, rfl⟩ := hpre
  rintro before act after rfl w hw
  exact h before act (after ++ rest) (by simp) w hw

theorem Start.AllSafe.concat {w : Parse} (h : start.AllSafe acts) (hw : start.run acts = some w)
    (hact : Safe a w act) : start.AllSafe (acts ++ [act]) := by
  intro before act' after heq w' hw'
  cases after using List.reverseRecOn with
  | nil =>
    obtain ⟨rfl, hone⟩ := List.append_inj' heq rfl
    obtain rfl := List.singleton_inj.mp hone
    exact Option.some.inj (hw.symm.trans hw') ▸ hact
  | append_singleton after last _ =>
    rw [← List.cons_append, ← List.append_assoc] at heq
    exact h before act' after (List.append_inj' heq rfl).1 w' hw'

theorem filterMap_concat (acts : List Act) (act : Act) :
    (acts ++ [act]).filterMap Act.text = acts.filterMap Act.text ++ act.text.toList := by
  rw [List.filterMap_append, List.filterMap_cons]
  cases act.text <;> rfl

/-- The literals of a line whose actions are safe. -/
theorem Start.AllSafe.good (h : start.AllSafe acts) :
    ∃ w bs, start.run acts = some w ∧ Good start (acts.filterMap Act.text) w bs := by
  induction acts using List.reverseRecOn with
  | nil =>
    obtain ⟨bs, hg⟩ := Good.init start
    exact ⟨_, bs, rfl, hg⟩
  | append_singleton acts act ih =>
    obtain ⟨w, bs, hw, hg⟩ := ih (h.front (List.prefix_append _ _))
    obtain ⟨w', bs', hstep, hg'⟩ := hg.step act (h acts act [] rfl w hw)
    refine ⟨w', bs', by rw [Start.run_concat, hw]; exact hstep, ?_⟩
    rw [filterMap_concat]
    exact hg'

/-- The literals are intact all along a line exactly when its actions are safe. -/
theorem literals_intact_iff (a : Arena) (start : Start a) (acts : List Act) :
    (∀ pre, pre <+: acts → start.Intact pre) ↔ start.AllSafe acts := by
  constructor
  · intro hintact
    induction acts using List.reverseRecOn with
    | nil =>
      intro before act after heq
      simp at heq
    | append_singleton acts act ih =>
      have hsafe := ih fun pre hpre => hintact pre (hpre.trans (List.prefix_append _ _))
      obtain ⟨w, bs, hw, hg⟩ := hsafe.good
      have hlast : Safe a w act := by
        by_contra hbad
        obtain ⟨w', hrun, hkept⟩ := hintact (acts ++ [act]) (List.prefix_refl _)
        rw [Start.run_concat, hw] at hrun
        rw [filterMap_concat] at hkept
        exact hg.lost act hbad ⟨w', hrun, hkept⟩
      exact hsafe.concat hw hlast
  · intro hsafe pre hpre
    obtain ⟨w, bs, hw, hg⟩ := (hsafe.front hpre).good
    exact ⟨w, hw, hg.kept⟩

/-- A line behind `finsh_heap_init`, without variables. -/
def Start.fresh (a : Arena) : Start a where
  heap := finsh_heap_init a.finsh_heap fun _ => 0
  vars _ := { type := .unknown, ptr := 0 }
  reachable := ⟨fun _ => 0, Machine.Reachable.start rfl⟩

/-- Nine empty literals fill the heap. The tenth takes the block of the first. -/
theorem ten_literals_lost :
    ¬(Start.fresh ⟨0x1000, by decide, by decide⟩).Intact
      (List.replicate 10 (.literal ⟨[], by decide, by decide⟩)) := by
  have hrun : ((Start.fresh ⟨0x1000, by decide, by decide⟩).run
      (List.replicate 10 (.literal ⟨[], by decide, by decide⟩))).map
        (fun w => (w.errno, w.strings.map Prod.fst)) =
      some (0, [4104, 4116, 4128, 4140, 4152, 4164, 4176, 4188, 4200, 4104]) := by decide +kernel
  rintro ⟨w, hw, hkept⟩
  rw [hw, Option.map_some, Option.some.injEq, Prod.mk.injEq] at hrun
  have hdistinct := (hkept.resolve_left (not_not.mpr hrun.1)).distinct
  rw [hrun.2] at hdistinct
  exact absurd hdistinct (by decide)

end

end Ab32Vg1.Finsh.Heap
