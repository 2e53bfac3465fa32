import Ab32Vg1.Kernel.MemBlocks
import Ab32Vg1.Kernel.Memheap
import Ab32Vg1.ProofKit.DoublyLinked

/-! How the words of a memory heap represent a tiling of its pool and a list of free items, and what
the pieces of the allocator do to them. -/

namespace Ab32Vg1.Kernel.Memheap

open ProofKit ProofKit.Tiling

@[simp] theorem RT_MEMHEAP_SIZE_eq : RT_MEMHEAP_SIZE = 24 := by decide
@[simp] theorem RT_MEMHEAP_MINIALLOC_eq : RT_MEMHEAP_MINIALLOC = 12 := rfl

/-- A block of the pool: its item and its payload. -/
abbrev Blk := Block 24 4

namespace MemHeap

variable (h : MemHeap) (f : Field) (a v : Nat)

@[simp] theorem set_self : (h.set f a v).self = h.self := rfl
@[simp] theorem set_start_addr : (h.set f a v).start_addr = h.start_addr := rfl
@[simp] theorem set_pool_size : (h.set f a v).pool_size = h.pool_size := rfl
@[simp] theorem set_available_size : (h.set f a v).available_size = h.available_size := rfl
@[simp] theorem set_free_list : (h.set f a v).free_list = h.free_list := rfl

end MemHeap

theorem get_set {h : MemHeap} {f g : Field} {a b v : Nat} (hab : Apart 24 a b) :
    (h.set f a v).get g b = if f = g ∧ b = a then v else h.get g b := by
  have hoff : ∀ f : Field, f.offset < 24 := by intro f; cases f <;> decide
  have hinj : f.offset = g.offset ↔ f = g := by cases f <;> cases g <;> decide
  refine (Words.set_field hab (hoff f) (hoff g)).trans ?_
  simp only [hinj]
  rfl

/-- The items of a pool at `s` whose list header is at `fh`. -/
def Node (fh s : Nat) (bs : List Blk) (x : Nat) : Prop := x = fh ∨ x = s + total bs ∨ x ∈ starts s bs

theorem Node.apart {fh s x y : Nat} {bs : List Blk}
    (hout : fh + 24 ≤ s ∨ s + total bs + 24 ≤ fh) (hx : Node fh s bs x) (hy : Node fh s bs y) :
    Apart 24 x y := by
  unfold Apart
  rcases hx with rfl | rfl | hx <;> rcases hy with rfl | rfl | hy
  · omega
  · omega
  · have := starts_le hy
    omega
  · omega
  · omega
  · have := starts_le hy
    omega
  · have := starts_le hx
    omega
  · have := starts_le hx
    omega
  · exact starts_apart hx hy

theorem get_removeFree {h : MemHeap} {fh s x y : Nat} {bs : List Blk} {g : Field}
    (hout : fh + 24 ≤ s ∨ s + total bs + 24 ≤ fh) (hx : Node fh s bs x)
    (hn : Node fh s bs (h.get .next_free x)) (hp : Node fh s bs (h.get .prev_free x))
    (hy : Node fh s bs y) : (Memheap.removeFree h x).get g y =
      if .next_free = g ∧ y = h.get .prev_free x then h.get .next_free x
      else if .prev_free = g ∧ y = h.get .next_free x then h.get .prev_free x else h.get g y := by
  simp only [removeFree, get_set (hn.apart hout hx), get_set (hp.apart hout hy),
    get_set (hn.apart hout hy), reduceCtorEq, false_and, true_and, if_false, ite_self]

/-- The items form a ring through the tailer that tiles the pool, and the items of `fl` a ring through
the list's header. -/
structure Shape (h : MemHeap) (bs : List Blk) (fl : List Nat) : Prop where
  fits : h.start_addr + total bs + 24 ≤ 2 ^ 32
  outside : h.free_list + 24 ≤ h.start_addr ∨ h.start_addr + total bs + 24 ≤ h.free_list
  ring : Chained (h.get .next) (h.get .prev) (h.start_addr + total bs) (starts h.start_addr bs)
    (h.start_addr + total bs)
  free : Chained (h.get .next_free) (h.get .prev_free) h.free_list fl h.free_list
  fl_nodup : fl.Nodup
  fl_sub : ∀ x ∈ fl, x ∈ starts h.start_addr bs
  magic : ∀ a b, (a, b) ∈ placed h.start_addr bs → h.get .magic a = magicWord b.used
  pool : ∀ a ∈ starts h.start_addr bs, h.get .pool_ptr a = h.self
  tail_magic : h.get .magic (h.start_addr + total bs) = magicWord true

/-- What an operation keeps of a heap: its place and its size. -/
structure SamePool (h h' : MemHeap) : Prop where
  self : h'.self = h.self
  start_addr : h'.start_addr = h.start_addr
  pool_size : h'.pool_size = h.pool_size
  free_list : h'.free_list = h.free_list

theorem SamePool.refl (h : MemHeap) : SamePool h h := ⟨rfl, rfl, rfl, rfl⟩

theorem SamePool.set (h : MemHeap) (f : Field) (a v : Nat) : SamePool h (h.set f a v) :=
  ⟨rfl, rfl, rfl, rfl⟩

theorem SamePool.trans {h1 h2 h3 : MemHeap} (a : SamePool h1 h2) (b : SamePool h2 h3) :
    SamePool h1 h3 :=
  ⟨b.self.trans a.self, b.start_addr.trans a.start_addr, b.pool_size.trans a.pool_size,
    b.free_list.trans a.free_list⟩

section Shape

variable {h h' : MemHeap} {bs pre post : List Blk} {b c d : Blk} {fl f1 f2 : List Nat} {x : Nat}

theorem Shape.congr (hs : Shape h bs fl) (hw : h'.words = h.words) (hsame : SamePool h h') :
    Shape h' bs fl := by
  obtain ⟨a1, a2, a3, a4, a5, a6, a7, a8, a9⟩ := hs
  obtain ⟨h1, h2, -, h4⟩ := hsame
  have hget : h'.get = h.get := by
    funext f a
    simp only [MemHeap.get, hw]
  constructor <;> (try rw [h4]) <;> simpa only [hget, h1, h2]

theorem Shape.node_free (hs : Shape h bs fl) (hx : x ∈ fl) : Node h.free_list h.start_addr bs x :=
  Or.inr (Or.inr (hs.fl_sub x hx))

theorem Shape.header_not_mem (hs : Shape h bs fl) : h.free_list ∉ fl := by
  intro hmem
  have := starts_le (hs.fl_sub _ hmem)
  have := hs.outside
  omega

theorem Shape.free_nodup (hs : Shape h bs fl) : (h.free_list :: fl).Nodup :=
  List.nodup_cons.mpr ⟨hs.header_not_mem, hs.fl_nodup⟩

theorem ring_nodup (s : Nat) (bs : List Blk) : ((s + total bs) :: starts s bs).Nodup := by
  refine List.nodup_cons.mpr ⟨fun hmem => ?_, starts_nodup (by decide) s bs⟩
  have := starts_le hmem
  omega

/-- The successor of a block is the item behind it. -/
theorem Shape.next (hs : Shape h (pre ++ b :: post) fl) :
    h.get .next (h.start_addr + total pre) = h.start_addr + total pre + b.size := by
  have hring := hs.ring
  rw [starts_append] at hring
  have hback := (Chained.append.mp hring).2
  cases post with
  | nil =>
    refine hback.1.trans ?_
    simp [Nat.add_assoc]
  | cons c post => exact hback.1

theorem Shape.memitem_size (hs : Shape h (pre ++ b :: post) fl) :
    MEMITEM_SIZE h (h.start_addr + total pre) = b.size - 24 := by
  have hfits := hs.fits
  have hroom := b.room_le
  rw [total_append, total_cons] at hfits
  rw [MEMITEM_SIZE, hs.next, RT_MEMHEAP_SIZE_eq]
  have hsize : sub32 (h.start_addr + total pre + b.size) (h.start_addr + total pre) = b.size := by
    rw [sub32_of_le (by omega) (by omega)]
    omega
  rw [hsize, sub32_of_le (by omega) (by omega)]

/-- The block before a block. -/
theorem Shape.prev (hs : Shape h (pre ++ b :: c :: post) fl) :
    h.get .prev (h.start_addr + total pre + b.size) = h.start_addr + total pre := by
  have hring := hs.ring
  rw [starts_append] at hring
  exact (Chained.append.mp hring).2.2.1

/-- The tailer comes before the first block. -/
theorem Shape.prev_first (hs : Shape h (b :: post) fl) :
    h.get .prev h.start_addr = h.start_addr + total (b :: post) := hs.ring.2.1

theorem Shape.used_iff (hs : Shape h (pre ++ b :: post) fl) :
    RT_MEMHEAP_IS_USED h (h.start_addr + total pre) ↔ b.used = true := by
  have hmagic := hs.magic _ b (mem_placed.mpr ⟨pre, post, rfl, rfl⟩)
  rw [RT_MEMHEAP_IS_USED, hmagic]
  cases b.used <;> decide

theorem Shape.tail_used (hs : Shape h bs fl) : RT_MEMHEAP_IS_USED h (h.start_addr + total bs) := by
  rw [RT_MEMHEAP_IS_USED, hs.tail_magic]
  decide

/-- The item behind a block is in use when it is the tailer or the item of a block in use. -/
theorem Shape.next_used_iff (hs : Shape h (pre ++ b :: post) fl) :
    RT_MEMHEAP_IS_USED h (h.start_addr + total pre + b.size) ↔ ∀ c ∈ post.head?, c.used = true := by
  cases post with
  | nil =>
    have htail := hs.tail_used
    simp only [total_append, total_cons, total_nil, Nat.add_zero, ← Nat.add_assoc] at htail
    simpa using htail
  | cons c post =>
    have hs' : Shape h ((pre ++ [b]) ++ c :: post) fl := by simpa using hs
    have hiff := hs'.used_iff
    simp only [total_append, total_cons, total_nil, Nat.add_zero, ← Nat.add_assoc] at hiff
    simpa using hiff

/-! ### The free list -/

/-- Writes to the links of the free list. -/
theorem Shape.relist {fl' : List Nat} (hs : Shape h bs fl) (hsame : SamePool h h')
    (hget : ∀ g y, g ≠ .next_free → g ≠ .prev_free → Node h.free_list h.start_addr bs y →
      h'.get g y = h.get g y)
    (hfree : Chained (h'.get .next_free) (h'.get .prev_free) h.free_list fl' h.free_list)
    (hnd : fl'.Nodup) (hsub : ∀ x ∈ fl', x ∈ starts h.start_addr bs) : Shape h' bs fl' where
  fits := by rw [hsame.start_addr]; exact hs.fits
  outside := by rw [hsame.start_addr, hsame.free_list]; exact hs.outside
  ring := by
    rw [hsame.start_addr]
    refine hs.ring.congr (fun y hy => hget _ y (by decide) (by decide) ?_)
      fun y hy => hget _ y (by decide) (by decide) ?_
    · rcases List.mem_cons.mp hy with rfl | hy
      · exact Or.inr (Or.inl rfl)
      · exact Or.inr (Or.inr hy)
    · rcases List.mem_append.mp hy with hy | hy
      · exact Or.inr (Or.inr hy)
      · exact Or.inr (Or.inl (by simpa using hy))
  free := by rw [hsame.free_list]; exact hfree
  fl_nodup := hnd
  fl_sub := by rw [hsame.start_addr]; exact hsub
  magic a b hab := by
    rw [hsame.start_addr] at hab
    rw [hget _ a (by decide) (by decide) (Or.inr (Or.inr (List.mem_map_of_mem hab)))]
    exact hs.magic a b hab
  pool a ha := by
    rw [hsame.start_addr] at ha
    rw [hget _ a (by decide) (by decide) (Or.inr (Or.inr ha)), hsame.self]
    exact hs.pool a ha
  tail_magic := by
    rw [hsame.start_addr, hget _ _ (by decide) (by decide) (Or.inr (Or.inl rfl))]
    exact hs.tail_magic

/-- An item leaves the free list. -/
theorem Shape.removeFree (hs : Shape h bs (f1 ++ x :: f2)) :
    Shape (Memheap.removeFree h x) bs (f1 ++ f2) := by
  have hnode : ∀ y ∈ h.free_list :: (f1 ++ x :: f2), Node h.free_list h.start_addr bs y := by
    intro y hy
    rcases List.mem_cons.mp hy with rfl | hy
    · exact Or.inl rfl
    · exact hs.node_free hy
  have hx := hnode x (by simp)
  have hnx := hs.free.next_mem x (by simp)
  have hpx := hs.free.prev_mem x (by simp)
  have hq := hnode (h.get .next_free x) (by simp at hnx ⊢; tauto)
  have hp := hnode _ hpx
  have hget : ∀ g y, Node h.free_list h.start_addr bs y → (Memheap.removeFree h x).get g y =
      if .next_free = g ∧ y = h.get .prev_free x then h.get .next_free x
      else if .prev_free = g ∧ y = h.get .next_free x then h.get .prev_free x else h.get g y :=
    fun g y hy => get_removeFree hs.outside hx hq hp hy
  have hframe : ∀ g y, g ≠ .next_free → g ≠ .prev_free → Node h.free_list h.start_addr bs y →
      (Memheap.removeFree h x).get g y = h.get g y := by
    intro g y h1 h2 hy
    rw [hget g y hy, if_neg (fun hc => h1 hc.1.symm), if_neg (fun hc => h2 hc.1.symm)]
  have hsub : ∀ y ∈ f1 ++ f2, y ∈ f1 ++ x :: f2 := by
    intro y hy
    simp at hy ⊢
    tauto
  refine hs.relist ⟨rfl, rfl, rfl, rfl⟩ hframe ?_ ?_ fun y hy => hs.fl_sub y (hsub y hy)
  · refine hs.free.remove hs.free_nodup hs.header_not_mem (fun y hy => ?_) fun y hy => ?_
    · rw [hget _ y (hnode y (by simp at hy ⊢; tauto))]
      simp
    · rw [hget _ y (hnode y (by simp at hy ⊢; tauto))]
      simp
  · exact hs.fl_nodup.sublist (by simp)

/-- An item becomes the first of the free list. -/
theorem Shape.insertFree (hs : Shape h bs fl) (hx : x ∈ starts h.start_addr bs) (hxf : x ∉ fl) :
    Shape (Memheap.insertFree h x) bs (x :: fl) := by
  have hnode : ∀ y ∈ h.free_list :: fl, Node h.free_list h.start_addr bs y := by
    intro y hy
    rcases List.mem_cons.mp hy with rfl | hy
    · exact Or.inl rfl
    · exact hs.node_free hy
  have hxn : Node h.free_list h.start_addr bs x := Or.inr (Or.inr hx)
  have hfn : Node h.free_list h.start_addr bs h.free_list := Or.inl rfl
  have hnext := hs.free.next_mem h.free_list (by simp)
  have hq := hnode (h.get .next_free h.free_list) (by simp at hnext ⊢; tauto)
  have hxh : h.free_list ≠ x := by
    rintro rfl
    have := starts_le hx
    have := hs.outside
    omega
  have hqx : x ≠ h.get .next_free h.free_list := by
    intro heq
    rw [← heq] at hnext
    simp only [List.mem_append, List.mem_singleton] at hnext
    exact hnext.elim hxf fun h => hxh h.symm
  have hget : ∀ g y, Node h.free_list h.start_addr bs y → (Memheap.insertFree h x).get g y =
      if .next_free = g ∧ y = h.free_list then x
      else if .prev_free = g ∧ y = h.get .next_free h.free_list then x
      else if .prev_free = g ∧ y = x then h.free_list
      else if .next_free = g ∧ y = x then h.get .next_free h.free_list else h.get g y := by
    intro g y hy
    simp only [Memheap.insertFree, MemHeap.set_free_list, get_set (hxn.apart hs.outside hfn),
      get_set (hq.apart hs.outside hy), get_set (hfn.apart hs.outside hy),
      get_set (hxn.apart hs.outside hy), reduceCtorEq, false_and, true_and, if_false, hxh]
  have hframe : ∀ g y, g ≠ .next_free → g ≠ .prev_free → Node h.free_list h.start_addr bs y →
      (Memheap.insertFree h x).get g y = h.get g y := by
    intro g y h1 h2 hy
    rw [hget g y hy]
    simp [h1.symm, h2.symm]
  refine hs.relist ⟨rfl, rfl, rfl, rfl⟩ hframe ?_ (List.nodup_cons.mpr ⟨hxf, hs.fl_nodup⟩)
    fun y hy => ?_
  · refine hs.free.insert hs.header_not_mem ?_ ?_ ?_ (fun y hy => ?_) fun y hy => ?_
    · refine List.nodup_append.mpr ⟨hs.fl_nodup, by simp, ?_⟩
      rintro y hy w hw rfl
      obtain rfl : y = h.free_list := by simpa using hw
      exact hs.header_not_mem hy
    · rw [hget _ x hxn]
      simp [hxh.symm]
    · rw [hget _ x hxn]
      simp [hqx]
    · have hyx : y ≠ x := by
        rintro rfl
        exact (List.mem_cons.mp hy).elim (fun h => hxh h.symm) hxf
      rw [hget _ y (hnode y hy)]
      simp [hyx]
    · have hyx : y ≠ x := by
        rintro rfl
        simp only [List.mem_append, List.mem_singleton] at hy
        exact hy.elim hxf fun h => hxh h.symm
      rw [hget _ y (hnode y (by simp at hy ⊢; tauto))]
      simp [hyx]
  · rcases List.mem_cons.mp hy with rfl | hy
    · exact hx
    · exact hs.fl_sub y hy

/-- The free-list links of an item outside the list do not matter. -/
theorem Shape.setUnlisted {f : Field} {v : Nat} (hs : Shape h bs fl) (hx : x ∈ starts h.start_addr bs)
    (hxf : x ∉ fl) (hf : f = .next_free ∨ f = .prev_free) : Shape (h.set f x v) bs fl := by
  have hxn : Node h.free_list h.start_addr bs x := Or.inr (Or.inr hx)
  have hfn : Node h.free_list h.start_addr bs h.free_list := Or.inl rfl
  have hlist : ∀ g y, y ∈ h.free_list :: fl → (h.set f x v).get g y = h.get g y := by
    intro g y hy
    have hyn : Node h.free_list h.start_addr bs y := by
      rcases List.mem_cons.mp hy with rfl | hy
      · exact hfn
      · exact hs.node_free hy
    have hyx : y ≠ x := by
      rintro rfl
      rcases List.mem_cons.mp hy with rfl | hy
      · have := starts_le hx
        have := hs.outside
        omega
      · exact hxf hy
    rw [get_set (hxn.apart hs.outside hyn), if_neg fun hc => hyx hc.2]
  refine hs.relist ⟨rfl, rfl, rfl, rfl⟩ (fun g y h1 h2 hy => ?_) ?_ hs.fl_nodup hs.fl_sub
  · rw [get_set (hxn.apart hs.outside hy), if_neg]
    rintro ⟨rfl, -⟩
    exact hf.elim h1 h2
  · exact hs.free.congr (fun y hy => hlist _ y hy) fun y hy => hlist _ y (by simp at hy ⊢; tauto)

theorem Shape.takeFree (hs : Shape h bs (f1 ++ x :: f2)) :
    Shape (Memheap.takeFree h x) bs (f1 ++ f2) := by
  have hx : x ∈ starts h.start_addr bs := hs.fl_sub x (by simp)
  have hxf : x ∉ f1 ++ f2 := (List.nodup_middle.mp hs.fl_nodup |> List.nodup_cons.mp).1
  exact (hs.removeFree.setUnlisted hx hxf (Or.inl rfl)).setUnlisted hx hxf (Or.inr rfl)

/-! ### The block list -/

/-- Writes to the items of a pool whose free list stays. -/
theorem Shape.rebuild {bs' : List Blk} (hs : Shape h bs fl) (hsame : SamePool h h')
    (htotal : total bs' = total bs) {fl' : List Nat}
    (hring : Chained (h'.get .next) (h'.get .prev) (h.start_addr + total bs)
      (starts h.start_addr bs') (h.start_addr + total bs))
    (hfree : Chained (h'.get .next_free) (h'.get .prev_free) h.free_list fl' h.free_list)
    (hnd : fl'.Nodup) (hsub : ∀ x ∈ fl', x ∈ starts h.start_addr bs')
    (hmagic : ∀ a b, (a, b) ∈ placed h.start_addr bs' → h'.get .magic a = magicWord b.used)
    (hpool : ∀ a ∈ starts h.start_addr bs', h'.get .pool_ptr a = h.self)
    (htail : h'.get .magic (h.start_addr + total bs) = magicWord true) : Shape h' bs' fl' where
  fits := by rw [hsame.start_addr, htotal]; exact hs.fits
  outside := by rw [hsame.start_addr, hsame.free_list, htotal]; exact hs.outside
  ring := by rw [hsame.start_addr, htotal]; exact hring
  free := by rw [hsame.free_list]; exact hfree
  fl_nodup := hnd
  fl_sub := by rw [hsame.start_addr]; exact hsub
  magic a b hab := hmagic a b (by rwa [hsame.start_addr] at hab)
  pool a ha := by rw [hsame.self]; exact hpool a (by rwa [hsame.start_addr] at ha)
  tail_magic := by rw [hsame.start_addr, htotal]; exact htail

theorem starts_cut (o : Nat) (pre post : List Blk) (b : Blk) :
    starts o (pre ++ b :: post) =
      starts o pre ++ (o + total pre) :: starts (o + total pre + b.size) post := by
  rw [starts_append]
  rfl

theorem mem_placed_cut {o u : Nat} {y : Blk} :
    (u, y) ∈ placed o (pre ++ b :: post) ↔ (u, y) ∈ placed o pre ∨ (u = o + total pre ∧ y = b) ∨
      (u, y) ∈ placed (o + total pre + b.size) post := by
  rw [placed_append, List.mem_append, placed, List.mem_cons, Prod.mk.injEq]

/-- A block has the node of its item. -/
theorem Node.of_placed {fh s : Nat} {y : Blk} (h : (x, y) ∈ placed s bs) : Node fh s bs x :=
  Or.inr (Or.inr (List.mem_map_of_mem h))

/-- Writing the magic word marks the block. -/
theorem Shape.setMagic (hs : Shape h (pre ++ b :: post) fl) (u : Bool) :
    Shape (h.set .magic (h.start_addr + total pre) (magicWord u)) (pre ++ b.mark u :: post) fl := by
  have hstarts : starts h.start_addr (pre ++ b.mark u :: post) =
      starts h.start_addr (pre ++ b :: post) := by rw [starts_cut, starts_cut, Block.mark_size]
  have htotal : total (pre ++ b.mark u :: post) = total (pre ++ b :: post) := by simp
  have hat : h.start_addr + total pre ∈ starts h.start_addr (pre ++ b :: post) := by
    rw [starts_cut]
    simp
  have hget : ∀ g y, Node h.free_list h.start_addr (pre ++ b :: post) y →
      (h.set .magic (h.start_addr + total pre) (magicWord u)).get g y =
        if .magic = g ∧ y = h.start_addr + total pre then magicWord u else h.get g y :=
    fun g y hy => get_set (Node.apart hs.outside (Or.inr (Or.inr hat)) hy)
  have hother : ∀ g y, g ≠ .magic → Node h.free_list h.start_addr (pre ++ b :: post) y →
      (h.set .magic (h.start_addr + total pre) (magicWord u)).get g y = h.get g y := by
    intro g y hg hy
    rw [hget g y hy, if_neg fun hc => hg hc.1.symm]
  have hne : ∀ y, y ∈ starts h.start_addr pre ∨ y ∈ starts (h.start_addr + total pre + b.size) post ∨
      y = h.start_addr + total (pre ++ b :: post) → y ≠ h.start_addr + total pre := by
    have hroom := b.room_le
    rintro y (hy | hy | rfl)
    · have := starts_le hy
      omega
    · have := starts_le hy
      omega
    · rw [total_append, total_cons]
      omega
  refine hs.rebuild (SamePool.set h _ _ _) htotal ?_ ?_ hs.fl_nodup ?_ ?_ ?_ ?_
  · rw [hstarts]
    refine hs.ring.congr (fun y hy => hother _ y (by decide) ?_) fun y hy => hother _ y (by decide) ?_
    · rcases List.mem_cons.mp hy with rfl | hy
      · exact Or.inr (Or.inl rfl)
      · exact Or.inr (Or.inr hy)
    · rcases List.mem_append.mp hy with hy | hy
      · exact Or.inr (Or.inr hy)
      · exact Or.inr (Or.inl (by simpa using hy))
  · refine hs.free.congr (fun y hy => hother _ y (by decide) ?_) fun y hy => hother _ y (by decide) ?_
    · rcases List.mem_cons.mp hy with rfl | hy
      · exact Or.inl rfl
      · exact hs.node_free hy
    · rcases List.mem_append.mp hy with hy | hy
      · exact hs.node_free hy
      · exact Or.inl (by simpa using hy)
  · rw [hstarts]
    exact hs.fl_sub
  · intro a y hay
    rcases mem_placed_cut.mp hay with hay | ⟨rfl, rfl⟩ | hay
    · have hold : (a, y) ∈ placed h.start_addr (pre ++ b :: post) := mem_placed_cut.mpr (Or.inl hay)
      rw [hget _ a (Node.of_placed hold), if_neg fun hc =>
        hne a (Or.inl (List.mem_map_of_mem hay)) hc.2]
      exact hs.magic a y hold
    · rw [hget _ _ (Or.inr (Or.inr hat)), if_pos ⟨rfl, rfl⟩, Block.mark_used]
    · have hold : (a, y) ∈ placed h.start_addr (pre ++ b :: post) :=
        mem_placed_cut.mpr (Or.inr (Or.inr hay))
      rw [hget _ a (Node.of_placed hold), if_neg fun hc =>
        hne a (Or.inr (Or.inl (List.mem_map_of_mem hay))) hc.2]
      exact hs.magic a y hold
  · rw [hstarts]
    intro a ha
    rw [hother _ a (by decide) (Or.inr (Or.inr ha))]
    exact hs.pool a ha
  · rw [hget _ _ (Or.inr (Or.inl rfl)), if_neg fun hc => hne _ (Or.inr (Or.inr rfl)) hc.2]
    exact hs.tail_magic

/-- A new free item cuts a block in two. -/
theorem Shape.splitBlock (hs : Shape h (pre ++ b :: post) fl) (hsize : b.size = c.size + d.size)
    (hc : c.used = b.used) (hd : d.used = false) :
    Shape (Memheap.splitBlock h (h.start_addr + total pre) (h.start_addr + total pre + c.size))
      (pre ++ c :: d :: post) fl := by
  have hcr := c.room_le
  have hdr := d.room_le
  have htotal : total (pre ++ c :: d :: post) = total (pre ++ b :: post) := by
    simp only [total_append, total_cons]
    omega
  have hnewstarts : starts h.start_addr (pre ++ c :: d :: post) = starts h.start_addr pre ++
      (h.start_addr + total pre) :: (h.start_addr + total pre + c.size) ::
        starts (h.start_addr + total pre + b.size) post := by
    rw [starts_cut, hsize, ← Nat.add_assoc]
    rfl
  have hout : h.free_list + 24 ≤ h.start_addr ∨
      h.start_addr + total (pre ++ c :: d :: post) + 24 ≤ h.free_list := htotal ▸ hs.outside
  have hold : ∀ y, Node h.free_list h.start_addr (pre ++ b :: post) y →
      Node h.free_list h.start_addr (pre ++ c :: d :: post) y := by
    rintro y (rfl | rfl | hy)
    · exact Or.inl rfl
    · exact Or.inr (Or.inl (by rw [htotal]))
    · refine Or.inr (Or.inr ?_)
      rw [hnewstarts]
      rw [starts_cut] at hy
      simp at hy ⊢
      tauto
  generalize ha : h.start_addr + total pre = a at *
  have han : Node h.free_list h.start_addr (pre ++ c :: d :: post) a := by
    refine Or.inr (Or.inr ?_)
    rw [hnewstarts]
    simp
  have hxn : Node h.free_list h.start_addr (pre ++ c :: d :: post) (a + c.size) := by
    refine Or.inr (Or.inr ?_)
    rw [hnewstarts]
    simp
  have hnext : h.get .next a = a + b.size := ha ▸ hs.next
  have hqn : Node h.free_list h.start_addr (pre ++ c :: d :: post) (a + b.size) := by
    refine hold _ ?_
    cases post with
    | nil =>
      refine Or.inr (Or.inl ?_)
      simp only [total_append, total_cons, total_nil]
      omega
    | cons e post =>
      refine Or.inr (Or.inr ?_)
      rw [starts_cut, ha]
      simp [starts, placed]
  have hax : a ≠ a + c.size := by omega
  have hget : ∀ g y, Node h.free_list h.start_addr (pre ++ c :: d :: post) y →
      (Memheap.splitBlock h a (a + c.size)).get g y =
      if .next = g ∧ y = a then a + c.size
      else if .prev = g ∧ y = a + b.size then a + c.size
      else if .next = g ∧ y = a + c.size then a + b.size
      else if .prev = g ∧ y = a + c.size then a
      else if .pool_ptr = g ∧ y = a + c.size then h.self
      else if .magic = g ∧ y = a + c.size then magicWord false else h.get g y := by
    intro g y hy
    simp only [Memheap.splitBlock, get_set (hxn.apart hout han),
      get_set (hxn.apart hout hy), get_set (hqn.apart hout hy), get_set (han.apart hout hy), hnext,
      reduceCtorEq, false_and, true_and, if_false, hax]
  have hfree : ∀ g y, g = .next_free ∨ g = .prev_free →
      Node h.free_list h.start_addr (pre ++ c :: d :: post) y →
      (Memheap.splitBlock h a (a + c.size)).get g y = h.get g y := by
    intro g y hg hy
    rw [hget g y hy]
    rcases hg with rfl | rfl <;> simp
  have hring := hs.ring
  have hnd := ring_nodup h.start_addr (pre ++ b :: post)
  rw [starts_cut, ha] at hring hnd
  have hringnode : ∀ y, y ∈ (h.start_addr + total (pre ++ b :: post)) ::
      (starts h.start_addr pre ++ a :: starts (a + b.size) post) →
      Node h.free_list h.start_addr (pre ++ c :: d :: post) y ∧ y ≠ a + c.size := by
    intro y hy
    have hroom : y = h.start_addr + total (pre ++ b :: post) ∨ y ∈ starts h.start_addr pre ∨ y = a ∨
        y ∈ starts (a + b.size) post := by simpa using hy
    have hsum : total (pre ++ b :: post) = total pre + (b.size + total post) := by simp
    refine ⟨hold y ?_, ?_⟩
    · rcases List.mem_cons.mp hy with rfl | hy
      · exact Or.inr (Or.inl rfl)
      · refine Or.inr (Or.inr ?_)
        rwa [starts_cut, ha]
    · rcases hroom with rfl | hy | rfl | hy
      · omega
      · have := starts_le hy
        omega
      · omega
      · have := starts_le hy
        omega
  have hplain : ∀ g y, g = .magic ∨ g = .pool_ptr → y ∈ (h.start_addr + total (pre ++ b :: post)) ::
      (starts h.start_addr pre ++ a :: starts (a + b.size) post) →
      (Memheap.splitBlock h a (a + c.size)).get g y = h.get g y := by
    intro g y hg hy
    obtain ⟨hyn, hyx⟩ := hringnode y hy
    rw [hget g y hyn]
    rcases hg with rfl | rfl <;> simp [hyx]
  have hsame : SamePool h (Memheap.splitBlock h a (a + c.size)) := ⟨rfl, rfl, rfl, rfl⟩
  refine hs.rebuild hsame htotal ?_ ?_ hs.fl_nodup ?_ ?_ ?_ ?_
  · rw [hnewstarts]
    refine hring.insert_behind hnd ?_ ?_ (fun y hy => ?_) fun y hy => ?_
    · have h0 : c.size ≠ 0 := by omega
      rw [hget _ _ hxn, hnext]
      simp [h0]
    · have hcb : c.size ≠ b.size := by omega
      rw [hget _ _ hxn]
      simp [hcb]
    · obtain ⟨hyn, hyx⟩ := hringnode y hy
      rw [hget _ y hyn]
      simp [hyx]
    · obtain ⟨hyn, hyx⟩ := hringnode y hy
      rw [hget _ y hyn, hnext]
      simp [hyx]
  · have hlist : ∀ y ∈ h.free_list :: fl, Node h.free_list h.start_addr (pre ++ c :: d :: post) y := by
      intro y hy
      rcases List.mem_cons.mp hy with rfl | hy
      · exact Or.inl rfl
      · exact hold y (hs.node_free hy)
    exact hs.free.congr (fun y hy => hfree _ y (Or.inl rfl) (hlist y hy))
      fun y hy => hfree _ y (Or.inr rfl) (hlist y (by simp at hy ⊢; tauto))
  · intro y hy
    have hmem := hs.fl_sub y hy
    rw [starts_cut, ha] at hmem
    rw [hnewstarts]
    simp at hmem ⊢
    tauto
  · intro u y hy
    rcases mem_placed_cut.mp hy with hy | ⟨rfl, rfl⟩ | hy
    · have hu := List.mem_map_of_mem (f := Prod.fst) hy
      rw [hplain _ u (Or.inl rfl) (by simp; tauto)]
      exact hs.magic u y (mem_placed_cut.mpr (Or.inl hy))
    · rw [ha, hplain _ a (Or.inl rfl) (by simp), hc]
      exact hs.magic a b (mem_placed_cut.mpr (Or.inr (Or.inl ⟨ha.symm, rfl⟩)))
    · rw [ha, placed, List.mem_cons, Prod.mk.injEq] at hy
      rcases hy with ⟨rfl, rfl⟩ | hy
      · rw [hget _ _ hxn, hd]
        simp
      · have hu := List.mem_map_of_mem (f := Prod.fst) hy
        rw [Nat.add_assoc a, ← hsize] at hu hy
        rw [hplain _ u (Or.inl rfl) (by simp; tauto)]
        refine hs.magic u y (mem_placed_cut.mpr (Or.inr (Or.inr ?_)))
        rwa [ha]
  · intro u hu
    rw [hnewstarts] at hu
    by_cases hux : u = a + c.size
    · subst hux
      rw [hget _ _ hxn]
      simp
    · have hmem : u ∈ starts h.start_addr pre ++ a :: starts (a + b.size) post := by
        simp at hu ⊢
        tauto
      rw [hplain _ u (Or.inr rfl) (List.mem_cons_of_mem _ hmem)]
      refine hs.pool u ?_
      rwa [starts_cut, ha]
  · rw [hplain _ _ (Or.inl rfl) (by simp)]
    exact hs.tail_magic

/-- The item of the second of two neighbours leaves the block list. -/
theorem Shape.absorb {a : Blk} {fl' : List Nat} (hs : Shape h (pre ++ a :: b :: post) fl)
    (hsame : SamePool h h') (hsize : c.size = a.size + b.size) (hused : c.used = a.used)
    (hnext : ∀ y, Node h.free_list h.start_addr (pre ++ a :: b :: post) y → h'.get .next y =
      if y = h.start_addr + total pre then h.get .next (h.start_addr + total pre + a.size)
      else h.get .next y)
    (hprev : ∀ y, Node h.free_list h.start_addr (pre ++ a :: b :: post) y → h'.get .prev y =
      if y = h.get .next (h.start_addr + total pre + a.size) then h.start_addr + total pre
      else h.get .prev y)
    (hplain : ∀ g y, g = .magic ∨ g = .pool_ptr →
      Node h.free_list h.start_addr (pre ++ a :: b :: post) y → h'.get g y = h.get g y)
    (hfree : Chained (h'.get .next_free) (h'.get .prev_free) h.free_list fl' h.free_list)
    (hnd : fl'.Nodup) (hsub : ∀ x ∈ fl', x ∈ fl) (hgone : h.start_addr + total pre + a.size ∉ fl') :
    Shape h' (pre ++ c :: post) fl' := by
  have htotal : total (pre ++ c :: post) = total (pre ++ a :: b :: post) := by
    simp only [total_append, total_cons]
    omega
  have hold : starts h.start_addr (pre ++ a :: b :: post) =
      (starts h.start_addr pre ++ [h.start_addr + total pre]) ++
        (h.start_addr + total pre + a.size) :: starts (h.start_addr + total pre + c.size) post := by
    rw [starts_cut, hsize, ← Nat.add_assoc, List.append_assoc]
    rfl
  have hnew : starts h.start_addr (pre ++ c :: post) =
      (starts h.start_addr pre ++ [h.start_addr + total pre]) ++
        starts (h.start_addr + total pre + c.size) post := by
    rw [starts_cut, List.append_assoc]
    rfl
  have hkeep : ∀ y ∈ starts h.start_addr (pre ++ c :: post),
      y ∈ starts h.start_addr (pre ++ a :: b :: post) := by
    intro y hy
    rw [hold]
    rw [hnew] at hy
    simp at hy ⊢
    tauto
  have hback : h.get .prev (h.start_addr + total pre + a.size) = h.start_addr + total pre := hs.prev
  refine hs.rebuild hsame htotal ?_ hfree hnd ?_ ?_ (fun y hy => ?_) ?_
  · have hring := hs.ring
    have hnodup := ring_nodup h.start_addr (pre ++ a :: b :: post)
    rw [hold] at hring hnodup
    rw [hnew]
    refine hring.remove hnodup (List.nodup_cons.mp hnodup).1 (fun y hy => ?_) fun y hy => ?_
    · rw [hback]
      refine hnext y ?_
      rcases List.mem_cons.mp hy with rfl | hy
      · exact Or.inr (Or.inl rfl)
      · exact Or.inr (Or.inr (hkeep y (hnew ▸ hy)))
    · rw [hback]
      refine hprev y ?_
      rcases List.mem_append.mp hy with hy | hy
      · exact Or.inr (Or.inr (hkeep y (hnew ▸ hy)))
      · exact Or.inr (Or.inl (by simpa using hy))
  · intro y hy
    have hmem := hs.fl_sub y (hsub y hy)
    have hne : y ≠ h.start_addr + total pre + a.size := by
      rintro rfl
      exact hgone hy
    rw [hold] at hmem
    rw [hnew]
    simp [hne] at hmem ⊢
    tauto
  · intro u y hy
    have hkept : ∃ w : Blk, w.used = y.used ∧ (u, w) ∈ placed h.start_addr (pre ++ a :: b :: post) := by
      rcases mem_placed_cut.mp hy with hy | ⟨rfl, rfl⟩ | hy
      · exact ⟨y, rfl, mem_placed_cut.mpr (Or.inl hy)⟩
      · exact ⟨a, hused.symm, mem_placed_cut.mpr (Or.inr (Or.inl ⟨rfl, rfl⟩))⟩
      · refine ⟨y, rfl, mem_placed_cut.mpr (Or.inr (Or.inr (List.mem_cons_of_mem _ ?_)))⟩
        rwa [Nat.add_assoc (h.start_addr + total pre), ← hsize]
    obtain ⟨w, hw, hmem⟩ := hkept
    rw [hplain _ u (Or.inl rfl) (Node.of_placed hmem), ← hw]
    exact hs.magic u w hmem
  · rw [hplain _ y (Or.inr rfl) (Or.inr (Or.inr (hkeep y hy)))]
    exact hs.pool y (hkeep y hy)
  · rw [hplain _ _ (Or.inl rfl) (Or.inr (Or.inl rfl))]
    exact hs.tail_magic

/-- The links of a block lead to items. -/
theorem Shape.next_node (hs : Shape h bs fl) (hx : x ∈ starts h.start_addr bs) :
    Node h.free_list h.start_addr bs (h.get .next x) := by
  have hmem := hs.ring.next_mem x (List.mem_cons_of_mem _ hx)
  rcases List.mem_append.mp hmem with hmem | hmem
  · exact Or.inr (Or.inr hmem)
  · exact Or.inr (Or.inl (by simpa using hmem))

theorem mem_starts_second (o : Nat) (pre post : List Blk) (a b : Blk) :
    o + total pre + a.size ∈ starts o (pre ++ a :: b :: post) := by
  rw [starts_cut]
  simp [starts, placed]

theorem mem_starts_first (o : Nat) (pre post : List Blk) (a : Blk) :
    o + total pre ∈ starts o (pre ++ a :: post) := by
  rw [starts_cut]
  simp

/-- The free list is left alone by writes to other fields. -/
theorem Shape.free_congr (hs : Shape h bs fl)
    (hframe : ∀ g y, g = .next_free ∨ g = .prev_free → Node h.free_list h.start_addr bs y →
      h'.get g y = h.get g y) :
    Chained (h'.get .next_free) (h'.get .prev_free) h.free_list fl h.free_list := by
  have hnode : ∀ y ∈ h.free_list :: fl, Node h.free_list h.start_addr bs y := by
    intro y hy
    rcases List.mem_cons.mp hy with rfl | hy
    · exact Or.inl rfl
    · exact hs.node_free hy
  exact hs.free.congr (fun y hy => hframe _ y (Or.inl rfl) (hnode y hy))
    fun y hy => hframe _ y (Or.inr rfl) (hnode y (by simp at hy ⊢; tauto))

/-- A block absorbs the block behind it, which is not listed. -/
theorem Shape.mergePrev {a : Blk} (hs : Shape h (pre ++ a :: b :: post) fl)
    (hsize : c.size = a.size + b.size) (hused : c.used = a.used)
    (hfl : h.start_addr + total pre + a.size ∉ fl) :
    Shape (Memheap.mergePrev h (h.start_addr + total pre + a.size)) (pre ++ c :: post) fl := by
  have hB : Node h.free_list h.start_addr _ _ := Or.inr (Or.inr (mem_starts_second _ pre post a b))
  have hA : Node h.free_list h.start_addr _ _ := Or.inr (Or.inr (mem_starts_first _ pre (b :: post) a))
  have hQ := hs.next_node (mem_starts_second _ pre post a b)
  have hback := hs.prev
  have hroom := a.room_le
  generalize hAeq : h.start_addr + total pre = A at *
  have hne : A + a.size ≠ A := by omega
  have hget : ∀ g y, Node h.free_list h.start_addr (pre ++ a :: b :: post) y →
      (Memheap.mergePrev h (A + a.size)).get g y =
        if .prev = g ∧ y = h.get .next (A + a.size) then A
        else if .next = g ∧ y = A then h.get .next (A + a.size) else h.get g y := by
    intro g y hy
    simp only [Memheap.mergePrev, hback, get_set (hA.apart hs.outside hB),
      get_set (hQ.apart hs.outside hy), get_set (hA.apart hs.outside hy), reduceCtorEq, false_and,
      true_and, if_false, hne]
  have hsame : SamePool h (Memheap.mergePrev h (A + a.size)) := ⟨rfl, rfl, rfl, rfl⟩
  subst hAeq
  refine hs.absorb hsame hsize hused (fun y hy => ?_) (fun y hy => ?_) (fun g y hg hy => ?_) ?_
    hs.fl_nodup (fun _ => id) hfl
  · rw [hget _ y hy]
    simp
  · rw [hget _ y hy]
    simp
  · rw [hget _ y hy]
    rcases hg with rfl | rfl <;> simp
  · refine hs.free_congr fun g y hg hy => ?_
    rw [hget _ y hy]
    rcases hg with rfl | rfl <;> simp

/-- A block absorbs the listed block behind it. -/
theorem Shape.mergeNext {a : Blk} (hs : Shape h (pre ++ a :: b :: post)
      (f1 ++ (h.start_addr + total pre + a.size) :: f2))
    (hsize : c.size = a.size + b.size) (hused : c.used = a.used) :
    Shape (Memheap.mergeNext h (h.start_addr + total pre) (h.start_addr + total pre + a.size))
      (pre ++ c :: post) (f1 ++ f2) := by
  have hBs := mem_starts_second h.start_addr pre post a b
  have hB : Node h.free_list h.start_addr _ _ := Or.inr (Or.inr hBs)
  have hA : Node h.free_list h.start_addr _ _ := Or.inr (Or.inr (mem_starts_first _ pre (b :: post) a))
  have hQ := hs.next_node hBs
  have hback := hs.prev
  have hremoved := hs.removeFree
  have hnd := List.nodup_cons.mp (List.nodup_middle.mp hs.fl_nodup)
  have hroom := a.room_le
  generalize hAeq : h.start_addr + total pre = A at *
  have hnl : Node h.free_list h.start_addr (pre ++ a :: b :: post) (h.get .next_free (A + a.size)) := by
    have hmem := hs.free.next_mem (A + a.size) (by simp)
    simp only [List.mem_append, List.mem_singleton] at hmem
    rcases hmem with hmem | hmem
    · exact hs.node_free (by simpa using hmem)
    · exact Or.inl hmem
  have hpl : Node h.free_list h.start_addr (pre ++ a :: b :: post) (h.get .prev_free (A + a.size)) := by
    have hmem := hs.free.prev_mem (A + a.size) (by simp)
    rcases List.mem_cons.mp hmem with hmem | hmem
    · exact Or.inl hmem
    · exact hs.node_free hmem
  have hne : A + a.size ≠ A := by omega
  have hrelink : ∀ g y, Node h.free_list h.start_addr (pre ++ a :: b :: post) y →
      (((h.set .prev (h.get .next (A + a.size)) A).set .next A
        ((h.set .prev (h.get .next (A + a.size)) A).get .next (A + a.size)))).get g y =
        if .next = g ∧ y = A then h.get .next (A + a.size)
        else if .prev = g ∧ y = h.get .next (A + a.size) then A else h.get g y := by
    intro g y hy
    simp only [get_set (hQ.apart hs.outside hB), get_set (hQ.apart hs.outside hy),
      get_set (hA.apart hs.outside hy), reduceCtorEq, false_and, if_false]
  have hget : ∀ g y, Node h.free_list h.start_addr (pre ++ a :: b :: post) y →
      (Memheap.mergeNext h A (A + a.size)).get g y =
        if .next_free = g ∧ y = h.get .prev_free (A + a.size) then h.get .next_free (A + a.size)
        else if .prev_free = g ∧ y = h.get .next_free (A + a.size) then h.get .prev_free (A + a.size)
        else if .next = g ∧ y = A then h.get .next (A + a.size)
        else if .prev = g ∧ y = h.get .next (A + a.size) then A else h.get g y := by
    intro g y hy
    have hn' := hrelink .next_free _ hB
    have hp' := hrelink .prev_free _ hB
    simp only [reduceCtorEq, false_and, if_false] at hn' hp'
    refine (get_removeFree hs.outside hB (by rwa [hn']) (by rwa [hp']) hy).trans ?_
    rw [hn', hp', hrelink g y hy]
  have hlist : ∀ g y, Node h.free_list h.start_addr (pre ++ a :: b :: post) y →
      (Memheap.removeFree h (A + a.size)).get g y = _ :=
    fun g y hy => get_removeFree hs.outside hB hnl hpl hy
  have hsame : SamePool h (Memheap.mergeNext h A (A + a.size)) := ⟨rfl, rfl, rfl, rfl⟩
  subst hAeq
  refine hs.absorb hsame hsize hused (fun y hy => ?_) (fun y hy => ?_) (fun g y hg hy => ?_) ?_
    hnd.2 (fun y hy => ?_) hnd.1
  · rw [hget _ y hy]
    simp
  · rw [hget _ y hy]
    simp
  · rw [hget _ y hy]
    rcases hg with rfl | rfl <;> simp
  · refine hremoved.free_congr fun g y hg hy => ?_
    rw [hget _ y hy, hlist _ y hy]
    rcases hg with rfl | rfl <;> simp
  · simp at hy ⊢
    tauto

/-- The two writes of `expand` that take an item out of the block list. -/
theorem Shape.unlink {a : Blk} (hs : Shape h (pre ++ a :: b :: post) fl)
    (hsize : c.size = a.size + b.size) (hused : c.used = a.used)
    (hfl : h.start_addr + total pre + a.size ∉ fl) :
    let y := h.start_addr + total pre + a.size
    let h1 := h.set .prev (h.get .next y) (h.get .prev y)
    Shape (h1.set .next (h1.get .prev y) (h1.get .next y)) (pre ++ c :: post) fl := by
  have hB : Node h.free_list h.start_addr _ _ := Or.inr (Or.inr (mem_starts_second _ pre post a b))
  have hA : Node h.free_list h.start_addr _ _ := Or.inr (Or.inr (mem_starts_first _ pre (b :: post) a))
  have hQ := hs.next_node (mem_starts_second _ pre post a b)
  have hback := hs.prev
  have hroom := a.room_le
  have hnext : h.get .next (h.start_addr + total pre + a.size) =
      h.start_addr + total pre + a.size + b.size := by
    have hs' : Shape h ((pre ++ [a]) ++ b :: post) fl := by simpa using hs
    simpa [Nat.add_assoc] using hs'.next
  have hbroom := b.room_le
  generalize hAeq : h.start_addr + total pre = A at *
  have hne : A + a.size ≠ A + a.size + b.size := by omega
  have hget : ∀ g y, Node h.free_list h.start_addr (pre ++ a :: b :: post) y →
      (((h.set .prev (h.get .next (A + a.size)) (h.get .prev (A + a.size)))).set .next
        ((h.set .prev (h.get .next (A + a.size)) (h.get .prev (A + a.size))).get .prev (A + a.size))
        ((h.set .prev (h.get .next (A + a.size)) (h.get .prev (A + a.size))).get .next
          (A + a.size))).get g y =
        if .next = g ∧ y = A then h.get .next (A + a.size)
        else if .prev = g ∧ y = h.get .next (A + a.size) then A else h.get g y := by
    intro g y hy
    rw [hnext] at hQ ⊢
    simp only [hback, get_set (hQ.apart hs.outside hB), hnext,
      get_set (hQ.apart hs.outside hy), get_set (hA.apart hs.outside hy), reduceCtorEq, false_and,
      true_and, if_false, hne]
  intro y h1
  have hsame : SamePool h (h1.set .next (h1.get .prev y) (h1.get .next y)) := ⟨rfl, rfl, rfl, rfl⟩
  subst hAeq
  refine hs.absorb hsame hsize hused (fun y hy => ?_) (fun y hy => ?_) (fun g y hg hy => ?_) ?_
    hs.fl_nodup (fun _ => id) hfl
  · rw [hget _ y hy]
    simp
  · rw [hget _ y hy]
    simp
  · rw [hget _ y hy]
    rcases hg with rfl | rfl <;> simp
  · refine hs.free_congr fun g y hg hy => ?_
    rw [hget _ y hy]
    rcases hg with rfl | rfl <;> simp

end Shape

end Ab32Vg1.Kernel.Memheap
