import Mathlib.Order.Lattice
import Mathlib.Order.MinMax
import Mathlib.Logic.Function.Basic
import Mathlib.Logic.Relation

/-! Priority inheritance between threads that wait for locks of one another: when a lock's owner
runs at the priority of the threads that wait for it, and when a thread gets its own priority back.
A smaller priority value is a higher priority. -/

set_option linter.unusedSectionVars false

namespace Ab32Vg1.ProofKit

/-- Locks with their owners and waiting threads, the priorities of the threads, the priority that
each lock saved of its owner, and the priority that each thread was created with. -/
@[ext] structure Locks (L T P : Type) where
  owner : L → Option T
  waiting : L → T → Prop
  priority : T → P
  saved : L → P
  own : T → Option P

namespace Locks

variable {L T P : Type} [DecidableEq L] [DecidableEq T] [LinearOrder P]

/-- The owner of a lock has at least the priority of each thread that waits for the lock. -/
def Inherited (k : Locks L T P) : Prop :=
  ∀ l w, k.waiting l w → ∃ o, k.owner l = some o ∧ k.priority o ≤ k.priority w

/-- A thread that owns no lock has the priority that it was created with. -/
def Restored (k : Locks L T P) : Prop :=
  ∀ t p, k.own t = some p → (∀ l, k.owner l ≠ some t) → k.priority t = p

/-- The thread owns a lock that saved the thread's own priority. -/
def KeepsOwn (k : Locks L T P) (t : T) (p : P) : Prop := ∃ l, k.owner l = some t ∧ k.saved l = p

/-- The own priority of a thread is its current one, or is saved in one of its locks. -/
structure RestoringAt (k : Locks L T P) (t : T) (p : P) : Prop where
  free : (∀ l, k.owner l ≠ some t) → k.priority t = p
  held : ∀ l, k.owner l = some t → k.KeepsOwn t p

def Restoring (k : Locks L T P) : Prop := ∀ t p, k.own t = some p → k.RestoringAt t p

/-- No thread waits for a lock of its own, or for two locks. -/
structure Orderly (k : Locks L T P) : Prop where
  others : ∀ l t, k.waiting l t → k.owner l ≠ some t
  unique : ∀ l l' t, k.waiting l t → k.waiting l' t → l = l'

/-- The thread `w` waits for a lock of the thread `o`. -/
def Blocks (k : Locks L T P) (o w : T) : Prop := ∃ l, k.owner l = some o ∧ k.waiting l w

/-! ### The operations -/

/-- The thread `t` gets a free lock. -/
def acquire (k : Locks L T P) (l : L) (t : T) : Locks L T P :=
  { k with
    owner := Function.update k.owner l (some t)
    saved := Function.update k.saved l (k.priority t) }

/-- The thread `t` begins to wait for a lock of `o`, which gets at least the priority of `t`. -/
def wait (k : Locks L T P) (l : L) (t o : T) : Locks L T P :=
  { k with
    waiting := fun l' u => k.waiting l' u ∨ l' = l ∧ u = t
    priority := Function.update k.priority o (min (k.priority o) (k.priority t)) }

/-- The thread `t` no longer waits. -/
def leave (k : Locks L T P) (t : T) : Locks L T P :=
  { k with waiting := fun l u => k.waiting l u ∧ u ≠ t }

/-- The thread `t` frees a lock, which saves `p` from then on. -/
def giveUp (k : Locks L T P) (l : L) (t : T) (p : P) : Locks L T P :=
  { k with
    owner := Function.update k.owner l none
    priority := Function.update k.priority t (k.saved l)
    saved := Function.update k.saved l p }

/-- The thread `t` passes a lock on to the thread `next`, whose priority becomes `q`. -/
def handOver (k : Locks L T P) (l : L) (t next : T) (q : P) : Locks L T P :=
  { k with
    owner := Function.update k.owner l (some next)
    waiting := fun l' u => k.waiting l' u ∧ u ≠ next
    priority := Function.update (Function.update k.priority t (k.saved l)) next q
    saved := Function.update k.saved l (k.priority next) }

/-- Threads without a part in the locks may get other priorities, at which they are created, and
threads may end. -/
structure Settles (k k' : Locks L T P) : Prop where
  owner : k'.owner = k.owner
  waiting : k'.waiting = k.waiting
  saved : k'.saved = k.saved
  thread : ∀ t, (k'.priority t = k.priority t ∧ ∀ p, k'.own t = some p → k.own t = some p) ∨
    (∀ l, k.owner l ≠ some t ∧ ¬k.waiting l t) ∧ ∀ p, k'.own t = some p → k'.priority t = p

variable {k k' : Locks L T P} {l : L} {t o next : T} {p q : P}

/-! ### Inheritance -/

/-- Inheritance lock by lock carries along chains of waiting threads. -/
theorem Inherited.chain {w : T} (h : k.Inherited) (hchain : Relation.TransGen k.Blocks o w) :
    k.priority o ≤ k.priority w := by
  have hblocks : ∀ a b, k.Blocks a b → k.priority a ≤ k.priority b := by
    rintro a b ⟨l, ho, hw⟩
    obtain ⟨o', ho', hle⟩ := h l b hw
    obtain rfl := Option.some.inj (ho'.symm.trans ho)
    exact hle
  induction hchain with
  | single hb => exact hblocks _ _ hb
  | tail _ hb ih => exact ih.trans (hblocks _ _ hb)

theorem Inherited.acquire (h : k.Inherited) (hfree : ∀ w, ¬k.waiting l w) :
    (k.acquire l t).Inherited := by
  intro l' w hw
  have hne : l' ≠ l := fun heq => hfree w (heq ▸ hw)
  obtain ⟨o, ho, hle⟩ := h l' w hw
  exact ⟨o, (Function.update_of_ne hne ..).trans ho, hle⟩

theorem Inherited.leave (h : k.Inherited) : (k.leave t).Inherited :=
  fun l w hw => h l w hw.1

theorem Inherited.settles (h : k.Inherited) (hs : Settles k k') : k'.Inherited := by
  intro l w hw
  rw [hs.waiting] at hw
  obtain ⟨o, ho, hle⟩ := h l w hw
  refine ⟨o, by rw [hs.owner]; exact ho, ?_⟩
  rcases hs.thread o with ⟨hpo, -⟩ | ⟨hno, -⟩
  · rcases hs.thread w with ⟨hpw, -⟩ | ⟨hnw, -⟩
    · rw [hpo, hpw]
      exact hle
    · exact absurd hw (hnw l).2
  · exact absurd ho (hno l).1

/-- The owner of the lock gets the priority of the new waiting thread; it is passed on only if the
owner does not wait for a lock whose owner has a lower one. -/
theorem wait_inherited_iff (h : k.Inherited) (hk : k.Orderly) (ho : k.owner l = some o)
    (hot : o ≠ t) (hidle : ∀ l, ¬k.waiting l t) : (k.wait l t o).Inherited ↔
      ∀ l' o', k.waiting l' o → k.owner l' = some o' → k.priority o' ≤ k.priority t := by
  have hself : (k.wait l t o).priority o = min (k.priority o) (k.priority t) :=
    Function.update_self ..
  have hother : ∀ u, u ≠ o → (k.wait l t o).priority u = k.priority u :=
    fun u hu => Function.update_of_ne hu ..
  constructor
  · intro h' l' o' hw ho'
    have hne : o' ≠ o := fun heq => hk.others l' o hw (heq ▸ ho')
    obtain ⟨o'', ho'', hle⟩ := h' l' o (Or.inl hw)
    obtain rfl := Option.some.inj (ho'.symm.trans ho'')
    rw [hself, hother o' hne] at hle
    exact hle.trans (min_le_right ..)
  · intro hchain l' w hw
    rcases hw with hw | ⟨rfl, rfl⟩
    · obtain ⟨o', ho', hle⟩ := h l' w hw
      refine ⟨o', ho', ?_⟩
      have hlow : (k.wait l t o).priority o' ≤ k.priority o' := by
        by_cases heq : o' = o
        · rw [heq, hself]
          exact min_le_left ..
        · rw [hother o' heq]
      by_cases heq : w = o
      · subst heq
        rw [hself]
        exact le_min (hlow.trans hle) (hlow.trans (hchain l' o' hw ho'))
      · rw [hother w heq]
        exact hlow.trans hle
    · refine ⟨o, ho, ?_⟩
      rw [hself, hother w (Ne.symm hot)]
      exact min_le_right ..

theorem giveUp_inherited_iff (h : k.Inherited) (hfree : ∀ w, ¬k.waiting l w)
    (hidle : ∀ l, ¬k.waiting l t) : (k.giveUp l t p).Inherited ↔
      ∀ l', l' ≠ l → k.owner l' = some t → ∀ w, k.waiting l' w → k.saved l ≤ k.priority w := by
  have hself : (k.giveUp l t p).priority t = k.saved l := Function.update_self ..
  have hother : ∀ u, u ≠ t → (k.giveUp l t p).priority u = k.priority u :=
    fun u hu => Function.update_of_ne hu ..
  have howner : ∀ l', l' ≠ l → (k.giveUp l t p).owner l' = k.owner l' :=
    fun l' hl => Function.update_of_ne hl ..
  constructor
  · intro h' l' hl ho w hw
    have hwt : w ≠ t := fun heq => hidle l' (heq ▸ hw)
    obtain ⟨o, ho', hle⟩ := h' l' w hw
    rw [howner l' hl, ho] at ho'
    obtain rfl := Option.some.inj ho'
    rwa [hself, hother w hwt] at hle
  · intro hrest l' w hw
    have hl : l' ≠ l := fun heq => hfree w (heq ▸ hw)
    have hwt : w ≠ t := fun heq => hidle l' (heq ▸ hw)
    obtain ⟨o, ho, hle⟩ := h l' w hw
    refine ⟨o, (howner l' hl).trans ho, ?_⟩
    rw [hother w hwt]
    by_cases heq : o = t
    · subst heq
      rw [hself]
      exact hrest l' hl ho w hw
    · rw [hother o heq]
      exact hle

/-- Two things can go wrong when a lock is passed on: the old owner drops below the threads that
wait for its other locks, and the new one stays below the threads that go on waiting. -/
theorem handOver_inherited_iff (h : k.Inherited) (hk : k.Orderly) (hw : k.waiting l next)
    (hidle : ∀ l, ¬k.waiting l t) (hq : q ≤ k.priority next) :
    (k.handOver l t next q).Inherited ↔
      (∀ l', l' ≠ l → k.owner l' = some t → ∀ w, k.waiting l' w → k.saved l ≤ k.priority w) ∧
      ∀ w, k.waiting l w → w ≠ next → q ≤ k.priority w := by
  have htn : t ≠ next := fun heq => hidle l (heq ▸ hw)
  have hnext : (k.handOver l t next q).priority next = q := Function.update_self ..
  have hself : (k.handOver l t next q).priority t = k.saved l :=
    (Function.update_of_ne htn ..).trans (Function.update_self ..)
  have hother : ∀ u, u ≠ t → u ≠ next → (k.handOver l t next q).priority u = k.priority u :=
    fun u hu hun => (Function.update_of_ne hun ..).trans (Function.update_of_ne hu ..)
  have hnew : (k.handOver l t next q).owner l = some next := Function.update_self ..
  have howner : ∀ l', l' ≠ l → (k.handOver l t next q).owner l' = k.owner l' :=
    fun l' hl => Function.update_of_ne hl ..
  have hnot : ∀ l' u, k.waiting l' u → u ≠ t := fun l' u hu heq => hidle l' (heq ▸ hu)
  constructor
  · intro h'
    constructor
    · intro l' hl ho u hu
      have hun : u ≠ next := fun heq => hl (hk.unique l' l next (heq ▸ hu) hw)
      obtain ⟨o, ho', hle⟩ := h' l' u ⟨hu, hun⟩
      rw [howner l' hl, ho] at ho'
      obtain rfl := Option.some.inj ho'
      rwa [hself, hother u (hnot l' u hu) hun] at hle
    · intro u hu hun
      obtain ⟨o, ho', hle⟩ := h' l u ⟨hu, hun⟩
      rw [hnew] at ho'
      obtain rfl := Option.some.inj ho'
      rwa [hnext, hother u (hnot l u hu) hun] at hle
  · rintro ⟨hrest, hqueue⟩ l' u ⟨hu, hun⟩
    rw [hother u (hnot l' u hu) hun]
    by_cases hl : l' = l
    · subst hl
      exact ⟨next, hnew, hnext.le.trans (hqueue u hu hun)⟩
    · obtain ⟨o, ho, hle⟩ := h l' u hu
      refine ⟨o, (howner l' hl).trans ho, ?_⟩
      by_cases hot : o = t
      · subst hot
        rw [hself]
        exact hrest l' hl ho u hu
      · by_cases hon : o = next
        · subst hon
          rw [hnext]
          exact hq.trans hle
        · rw [hother o hot hon]
          exact hle

/-! ### Restoration -/

theorem Restoring.restored (h : k.Restoring) : k.Restored :=
  fun t p hp => (h t p hp).free

theorem Restoring.acquire (h : k.Restoring) (hfree : k.owner l = none) :
    (k.acquire l t).Restoring := by
  have hnew : (k.acquire l t).owner l = some t := Function.update_self ..
  have howner : ∀ l', l' ≠ l → (k.acquire l t).owner l' = k.owner l' :=
    fun l' hl => Function.update_of_ne hl ..
  have hne : ∀ l' u, k.owner l' = some u → l' ≠ l := by
    rintro l' u ho rfl
    rw [hfree] at ho
    cases ho
  have hkeeps : ∀ u p, k.KeepsOwn u p → (k.acquire l t).KeepsOwn u p := by
    rintro u p ⟨l', ho, hs⟩
    have hl := hne l' u ho
    exact ⟨l', (howner l' hl).trans ho, (Function.update_of_ne hl ..).trans hs⟩
  intro u p hp
  constructor
  · intro hno
    apply (h u p hp).free
    intro l' ho
    exact hno l' ((howner l' (hne l' u ho)).trans ho)
  · intro l' ho
    by_cases hother : ∃ l'', k.owner l'' = some u
    · obtain ⟨l'', ho''⟩ := hother
      exact hkeeps u p ((h u p hp).held l'' ho'')
    · -- the first lock of the thread saves its own priority
      have hl : l' = l := by
        by_contra hl
        exact hother ⟨l', (howner l' hl).symm.trans ho⟩
      rw [hl, hnew] at ho
      obtain rfl := Option.some.inj ho
      refine ⟨l, hnew, (Function.update_self ..).trans ?_⟩
      exact (h t p hp).free fun l'' ho'' => hother ⟨l'', ho''⟩

theorem Restoring.wait (h : k.Restoring) (ho : k.owner l = some o) : (k.wait l t o).Restoring := by
  intro u p hp
  refine ⟨fun hno => ?_, (h u p hp).held⟩
  have hne : u ≠ o := by
    rintro rfl
    exact hno l ho
  exact (Function.update_of_ne hne ..).trans ((h u p hp).free hno)

theorem Restoring.leave (h : k.Restoring) : (k.leave t).Restoring :=
  fun u p hp => ⟨(h u p hp).free, (h u p hp).held⟩

theorem Restoring.settles (h : k.Restoring) (hs : Settles k k') : k'.Restoring := by
  intro t p hp
  rcases hs.thread t with ⟨hprio, hown⟩ | ⟨hno, hnew⟩
  · have ht := h t p (hown p hp)
    constructor
    · intro hnone
      rw [hprio]
      exact ht.free fun l => hs.owner ▸ hnone l
    · intro l ho
      obtain ⟨l', ho', hsaved⟩ := ht.held l (hs.owner ▸ ho)
      exact ⟨l', by rw [hs.owner]; exact ho', by rw [hs.saved]; exact hsaved⟩
  · refine ⟨fun _ => hnew p hp, fun l ho => ?_⟩
    rw [hs.owner] at ho
    exact absurd ho (hno l).1

/-- A thread that gives a lock away and owns others keeps its own priority in one of them. -/
def KeepsOther (k : Locks L T P) (l : L) (t : T) : Prop :=
  ∀ p, k.own t = some p → (∃ l', l' ≠ l ∧ k.owner l' = some t) →
    ∃ l', l' ≠ l ∧ k.owner l' = some t ∧ k.saved l' = p

/-- The lock leaves its owner, and the thread `u` does not get it. -/
theorem Restoring.loses {u : T} (h : k.Restoring) (ho : k.owner l = some t)
    (hkeeps : k.KeepsOther l t) (howner : ∀ l', l' ≠ l → k'.owner l' = k.owner l')
    (hsaved : ∀ l', l' ≠ l → k'.saved l' = k.saved l') (hown : k'.own = k.own)
    (hself : k'.priority t = k.saved l) (hother : u ≠ t → k'.priority u = k.priority u)
    (hu : k'.owner l ≠ some u) (hp : k'.own u = some p) : k'.RestoringAt u p := by
  rw [hown] at hp
  have hne : ∀ l', k'.owner l' = some u → l' ≠ l := by
    rintro l' ho' rfl
    exact hu ho'
  by_cases hut : u = t
  · subst hut
    constructor
    · -- the saved priority of the only lock is the thread's own
      intro hno
      rw [hself]
      obtain ⟨l', ho', hs⟩ := (h u p hp).held l ho
      have hl : l' = l := by
        by_contra hl
        exact hno l' ((howner l' hl).trans ho')
      exact hl ▸ hs
    · intro l' ho'
      have hl := hne l' ho'
      obtain ⟨l2, hl2, ho2, hs2⟩ := hkeeps p hp ⟨l', hl, (howner l' hl).symm.trans ho'⟩
      exact ⟨l2, (howner l2 hl2).trans ho2, (hsaved l2 hl2).trans hs2⟩
  · have hne' : ∀ l', k.owner l' = some u → l' ≠ l := by
      rintro l' ho' rfl
      exact hut (Option.some.inj (ho'.symm.trans ho))
    constructor
    · intro hno
      rw [hother hut]
      exact (h u p hp).free fun l' ho' => hno l' ((howner l' (hne' l' ho')).trans ho')
    · intro l' ho'
      have hl := hne l' ho'
      obtain ⟨l2, ho2, hs2⟩ := (h u p hp).held l' ((howner l' hl).symm.trans ho')
      have hl2 := hne' l2 ho2
      exact ⟨l2, (howner l2 hl2).trans ho2, (hsaved l2 hl2).trans hs2⟩

theorem Restoring.giveUp (h : k.Restoring) (ho : k.owner l = some t) (hkeeps : k.KeepsOther l t) :
    (k.giveUp l t q).Restoring := by
  have hnone : (k.giveUp l t q).owner l = none := Function.update_self ..
  intro u p hp
  apply h.loses ho hkeeps
  · exact fun l' hl => Function.update_of_ne hl ..
  · exact fun l' hl => Function.update_of_ne hl ..
  · rfl
  · exact Function.update_self ..
  · exact fun hut => Function.update_of_ne hut ..
  · simp [hnone]
  · exact hp

theorem Restoring.handOver (h : k.Restoring) (ho : k.owner l = some t) (htn : t ≠ next)
    (hkeeps : k.KeepsOther l t) : (k.handOver l t next q).Restoring := by
  have hnew : (k.handOver l t next q).owner l = some next := Function.update_self ..
  have howner : ∀ l', l' ≠ l → (k.handOver l t next q).owner l' = k.owner l' :=
    fun l' hl => Function.update_of_ne hl ..
  have hsaved : ∀ l', l' ≠ l → (k.handOver l t next q).saved l' = k.saved l' :=
    fun l' hl => Function.update_of_ne hl ..
  intro u p hp
  by_cases hun : u = next
  · subst hun
    refine ⟨fun hno => absurd hnew (hno l), fun l' _ => ?_⟩
    by_cases hother : ∃ l'', k.owner l'' = some u
    · obtain ⟨l'', ho''⟩ := hother
      obtain ⟨l2, ho2, hs2⟩ := (h u p hp).held l'' ho''
      have hl2 : l2 ≠ l := by
        rintro rfl
        exact htn (Option.some.inj (ho.symm.trans ho2))
      exact ⟨l2, (howner l2 hl2).trans ho2, (hsaved l2 hl2).trans hs2⟩
    · refine ⟨l, hnew, (Function.update_self ..).trans ?_⟩
      exact (h u p hp).free fun l'' ho'' => hother ⟨l'', ho''⟩
  · apply h.loses ho hkeeps howner hsaved
    · rfl
    · exact (Function.update_of_ne htn ..).trans (Function.update_self ..)
    · exact fun hut => (Function.update_of_ne hun ..).trans (Function.update_of_ne hut ..)
    · rw [hnew]
      exact fun heq => hun (Option.some.inj heq).symm
    · exact hp

end Locks

end Ab32Vg1.ProofKit
