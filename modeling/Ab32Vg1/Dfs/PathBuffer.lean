import Ab32Vg1.Dfs.Path

/-! `dfs_normalize_path` in its block of memory: the string is rewritten in place with two cursors.  An
access outside of the block gives `none`. -/

namespace Ab32Vg1.Dfs

open ProofKit

def NUL : Char := Char.ofNat 0

/-- `*i = c` -/
def write (b : List Char) (i : Nat) (c : Char) : Option (List Char) :=
  if i < b.length then some (b.set i c) else none

/-- `while ((*src == '/') && (*src != '\0')) src ++;` -/
def skip (b : List Char) (src : Nat) : Option Nat :=
  if h : src < b.length then if b[src] = '/' then skip b (src + 1) else some src else none
termination_by b.length - src

/-- `while ((c = *src++) != '\0' && c != '/') *dst ++ = c;`, with the character that ends it. -/
def copy (b : List Char) (src dst : Nat) : Option (List Char × Nat × Nat × Char) :=
  if h : src < b.length then
    let c := b[src]
    if c ≠ NUL ∧ c ≠ '/' then
      if dst < b.length then copy (b.set dst c) (src + 1) (dst + 1) else none
    else some (b, src + 1, dst, c)
  else none
termination_by b.length - src
decreasing_by
  rw [List.length_set]
  omega

/-- `while (dst0 < dst && dst[-1] != '/') dst --;` -/
def back (b : List Char) : Nat → Option Nat
  | 0 => some 0
  | dst + 1 => do if (← b[dst]?) ≠ '/' then back b dst else some (dst + 1)

/-- How a turn of the loop ends. -/
inductive Turn where
  | next (b : List Char) (src dst : Nat)
  | null
  | done (b : List Char) (dst : Nat)

/-- The copy at the end of a turn. -/
def copyTurn (b : List Char) (src dst : Nat) : Option Turn := do
  let r ← copy b src dst
  if r.2.2.2 = '/' then
    let b ← write r.1 r.2.2.1 '/'
    some (.next b (← skip b r.2.1) (r.2.2.1 + 1))
  else some (.done r.1 r.2.2.1)

/-- The label `up_one`. -/
def upTurn (b : List Char) (src dst : Nat) : Option Turn :=
  match dst with
  | 0 => some .null
  | dst + 1 => do some (.next b src (← back b dst))

def turn (b : List Char) (src dst : Nat) : Option Turn := do
  if (← b[src]?) = '.' then
    let c ← b[src + 1]?
    if c = NUL then copyTurn b (src + 1) dst
    else if c = '/' then some (.next b (← skip b (src + 2)) dst)
    else if c = '.' then
      let c ← b[src + 2]?
      if c = NUL then upTurn b (src + 2) dst
      else if c = '/' then upTurn b (← skip b (src + 3)) dst
      else copyTurn b src dst
    else copyTurn b src dst
  else copyTurn b src dst

/-! ### The cursor moves on -/

section Moves

variable {b b' : List Char} {src src' dst dst' : Nat} {c : Char}

theorem skip_le (h : skip b src = some src') : src ≤ src' := by
  fun_induction skip b src with
  | case1 src hlt hc ih =>
    have hle := ih h
    omega
  | case2 src hlt hc => exact (Option.some.inj h).le
  | case3 src hlt => cases h

theorem copy_moves (h : copy b src dst = some (b', src', dst', c)) :
    b'.length = b.length ∧ src < src' := by
  fun_induction copy b src dst with
  | case1 b src dst hlt x hc hdst ih =>
    obtain ⟨hlen, hsrc⟩ := ih h
    exact ⟨by rw [hlen, List.length_set], by omega⟩
  | case2 => cases h
  | case3 b src dst hlt x hc =>
    obtain ⟨rfl, rfl, -⟩ := by simpa using h
    exact ⟨rfl, by omega⟩
  | case4 => cases h

theorem write_eq_some (h : write b dst c = some b') : dst < b.length ∧ b' = b.set dst c := by
  rw [write] at h
  split at h
  · exact ⟨by assumption, (Option.some.inj h).symm⟩
  · cases h

theorem copyTurn_moves (h : copyTurn b src dst = some (.next b' src' dst')) :
    b'.length = b.length ∧ src < src' := by
  obtain ⟨⟨b₁, src₁, dst₁, c₁⟩, hcopy, h⟩ := Option.bind_eq_some_iff.mp h
  obtain ⟨hlen, hlt⟩ := copy_moves hcopy
  split at h
  · obtain ⟨b₂, hwrite, h⟩ := Option.bind_eq_some_iff.mp h
    obtain ⟨src₂, hskip, h⟩ := Option.bind_eq_some_iff.mp h
    have hle := skip_le hskip
    simp only at hle
    have hset := (write_eq_some hwrite).2
    obtain ⟨rfl, rfl, -⟩ := by simpa using h
    exact ⟨by rw [hset, List.length_set, hlen], by omega⟩
  · cases h

theorem upTurn_moves (h : upTurn b src dst = some (.next b' src' dst')) : b' = b ∧ src' = src := by
  cases dst with
  | zero => cases h
  | succ dst =>
    obtain ⟨dst₁, hback, h⟩ := Option.bind_eq_some_iff.mp h
    obtain ⟨rfl, rfl, -⟩ := by simpa using h
    exact ⟨rfl, rfl⟩

/-- A turn reads at least one character. -/
theorem turn_moves (h : turn b src dst = some (.next b' src' dst')) :
    b'.length = b.length ∧ src < src' ∧ src < b.length := by
  obtain ⟨c, hc, h⟩ := Option.bind_eq_some_iff.mp h
  have hlt := (List.getElem?_eq_some_iff.mp hc).1
  suffices b'.length = b.length ∧ src < src' from ⟨this.1, this.2, hlt⟩
  split at h
  case isFalse => exact copyTurn_moves h
  obtain ⟨c₁, hc₁, h⟩ := Option.bind_eq_some_iff.mp h
  split at h
  · obtain ⟨hlen, hsrc⟩ := copyTurn_moves h
    exact ⟨hlen, by omega⟩
  split at h
  · obtain ⟨src₁, hskip, h⟩ := Option.bind_eq_some_iff.mp h
    have hle := skip_le hskip
    obtain ⟨rfl, rfl, -⟩ := by simpa using h
    exact ⟨rfl, by omega⟩
  split at h
  case isFalse => exact copyTurn_moves h
  obtain ⟨c₂, hc₂, h⟩ := Option.bind_eq_some_iff.mp h
  split at h
  · obtain ⟨rfl, rfl⟩ := upTurn_moves h
    exact ⟨rfl, by omega⟩
  split at h
  · obtain ⟨src₁, hskip, h⟩ := Option.bind_eq_some_iff.mp h
    have hle := skip_le hskip
    obtain ⟨rfl, rfl⟩ := upTurn_moves h
    exact ⟨rfl, by omega⟩
  · exact copyTurn_moves h

end Moves

/-- The loop: `none` is an access outside of the block, and `some none` is the path above the root. -/
def normalizeLoop (b : List Char) (src dst : Nat) : Option (Option (List Char × Nat)) :=
  match _hturn : turn b src dst with
  | none => none
  | some .null => some none
  | some (.done b dst) => some (some (b, dst))
  | some (.next b' src' dst') => normalizeLoop b' src' dst'
termination_by b.length - src
decreasing_by
  obtain ⟨hlen, hlt, hsrc⟩ := turn_moves _hturn
  omega

/-- What follows the loop. -/
def closeText (b : List Char) (dst : Nat) : Option (List Char) := do
  let b ← write b dst NUL
  -- `dst --` leaves the block when nothing is written, and `*dst` is read there.
  let b ← match dst with
    | 0 => none
    | 1 => some b
    | dst + 1 => if (← b[dst]?) = '/' then write b dst NUL else some b
  if (← b[0]?) = NUL then
    let b ← write b 0 '/'
    write b 1 NUL
  else some b

/-- The string in a block. -/
def text (b : List Char) : List Char := b.takeWhile (· ≠ NUL)

/-- `dfs_normalize_path` with the block of `fullpath`: `none` is an access outside of it. -/
def dfs_normalize_path_block (memory : Bool) (working_directory : List Char)
    (directory : Option (List Char)) (filename : List Char) : Option (Option (List Char)) := do
  let directory := directory.getD working_directory
  let fullpath := if filename.head? ≠ some '/' then directory ++ '/' :: filename else filename
  if memory then
    match ← normalizeLoop (fullpath ++ [NUL]) 0 0 with
    | none => some none
    | some r => some (some (text (← closeText r.1 r.2)))
  else some none

/-! ### One read at a time -/

theorem skip_eq (b : List Char) (src : Nat) :
    skip b src = b[src]?.bind fun c => if c = '/' then skip b (src + 1) else some src := by
  rw [skip]
  by_cases h : src < b.length
  · rw [dif_pos h, List.getElem?_eq_getElem h, Option.bind_some]
  · rw [dif_neg h, List.getElem?_eq_none (by omega), Option.bind_none]

theorem copy_eq (b : List Char) (src dst : Nat) :
    copy b src dst = b[src]?.bind fun c =>
      if c ≠ NUL ∧ c ≠ '/' then
        if dst < b.length then copy (b.set dst c) (src + 1) (dst + 1) else none
      else some (b, src + 1, dst, c) := by
  rw [copy]
  by_cases h : src < b.length
  · rw [dif_pos h, List.getElem?_eq_getElem h, Option.bind_some]
  · rw [dif_neg h, List.getElem?_eq_none (by omega), Option.bind_none]

/-! ### What the block holds -/

/-- The block holds what was written and, behind a gap, what is left to read. -/
structure Holds (b dst gap src : List Char) : Prop where
  block : b = dst.reverse ++ (gap ++ (src ++ [NUL]))
  src_text : NUL ∉ src
  dst_text : NUL ∉ dst

namespace Holds

variable {b dst gap src t : List Char} {c : Char}

theorem read (h : Holds b dst gap src) (k : Nat) :
    b[dst.length + gap.length + k]? = (src ++ [NUL])[k]? := by
  rw [h.block, List.getElem?_append_right (by rw [List.length_reverse]; omega),
    List.getElem?_append_right (by rw [List.length_reverse]; omega), List.length_reverse]
  congr 1
  omega

theorem lt_length (h : Holds b dst gap src) : dst.length + gap.length + src.length < b.length := by
  rw [h.block]
  simp only [List.length_append, List.length_reverse, List.length_cons, List.length_nil]
  omega

/-- A character that was read widens the gap. -/
theorem pass (h : Holds b dst gap (c :: src)) : Holds b dst (gap ++ [c]) src := by
  refine ⟨?_, fun hc => h.src_text (List.mem_cons_of_mem _ hc), h.dst_text⟩
  rw [h.block]
  simp

/-- A character is written into the gap. -/
theorem put {x : Char} (h : Holds b dst (x :: gap) src) (hc : c ≠ NUL) :
    Holds (b.set dst.length c) (c :: dst) gap src := by
  refine ⟨?_, h.src_text, ?_⟩
  · rw [h.block, List.set_append_right _ _ (by rw [List.length_reverse])]
    simp
  · intro hmem
    rcases List.mem_cons.mp hmem with heq | hmem
    · exact hc heq.symm
    · exact h.dst_text hmem

/-- A character is read, and one is written. -/
theorem pass_put {x : Char} (h : Holds b dst gap (c :: src)) (hx : x ≠ NUL) :
    ∃ gap', gap'.length = gap.length ∧ Holds (b.set dst.length x) (x :: dst) gap' src := by
  obtain ⟨y, gap', hgap⟩ : ∃ y gap', gap ++ [c] = y :: gap' :=
    List.exists_cons_of_ne_nil (by simp)
  have hcount := congrArg List.length hgap
  exact ⟨gap', by simpa using hcount.symm, (hgap ▸ h.pass).put hx⟩

/-- What was written last is given up. -/
theorem drop (h : Holds b (c :: dst) gap src) : Holds b dst (c :: gap) src := by
  refine ⟨?_, h.src_text, fun hc => h.dst_text (List.mem_cons_of_mem _ hc)⟩
  rw [h.block]
  simp

/-- The slashes are skipped. -/
theorem skip (h : Holds b dst gap src) : ∃ gap', gap.length ≤ gap'.length ∧
    Holds b dst gap' (skipSlashes src) ∧
    Dfs.skip b (dst.length + gap.length) = some (dst.length + gap'.length) := by
  induction src generalizing gap with
  | nil =>
    refine ⟨gap, le_refl _, h, ?_⟩
    rw [skip_eq, ← Nat.add_zero (_ + _), h.read 0]
    rfl
  | cons c src ih =>
    have hread : b[dst.length + gap.length]? = some c := h.read 0
    rw [skip_eq, hread, Option.bind_some]
    by_cases hc : c = '/'
    · obtain ⟨gap', hle, hgap', hskip⟩ := ih h.pass
      rw [List.length_append, List.length_singleton] at hle hskip
      refine ⟨gap', by omega, ?_, ?_⟩
      · rw [skipSlashes, List.dropWhile_cons_of_pos (by simpa using hc)]
        exact hgap'
      · rw [if_pos hc, Nat.add_assoc, hskip]
    · refine ⟨gap, le_refl _, ?_, if_neg hc⟩
      rw [skipSlashes, List.dropWhile_cons_of_neg (by simpa using hc)]
      exact h

/-- A name is copied into the gap, and the character behind it widens the gap. -/
theorem copy (h : Holds b dst gap src) :
    ∃ b' gap', Holds b' ((src.takeWhile (· ≠ '/')).reverse ++ dst) gap' (src.dropWhile (· ≠ '/')) ∧
      Dfs.copy b (dst.length + gap.length) dst.length = some (b',
        ((src.takeWhile (· ≠ '/')).reverse ++ dst).length + gap'.length + 1,
        ((src.takeWhile (· ≠ '/')).reverse ++ dst).length,
        (src.dropWhile (· ≠ '/')).headD NUL) := by
  induction src generalizing b dst gap with
  | nil =>
    refine ⟨b, gap, h, ?_⟩
    rw [copy_eq, ← Nat.add_zero (_ + _), h.read 0]
    rfl
  | cons c src ih =>
    have hread : b[dst.length + gap.length]? = some c := h.read 0
    have hc : c ≠ NUL := fun heq => h.src_text (heq ▸ List.mem_cons_self)
    rw [copy_eq, hread, Option.bind_some]
    by_cases hslash : c = '/'
    · refine ⟨b, gap, ?_, ?_⟩
      · rw [List.takeWhile_cons_of_neg (by simpa using hslash),
          List.dropWhile_cons_of_neg (by simpa using hslash)]
        exact h
      · rw [if_neg (by simp [hslash])]
        simp [hslash]
    · have hlt := h.lt_length
      rw [if_pos ⟨hc, hslash⟩, if_pos (by omega)]
      obtain ⟨gap₁, hlen, hput⟩ := h.pass_put hc
      obtain ⟨b', gap', hgap', hcopy⟩ := ih hput
      refine ⟨b', gap', ?_, ?_⟩
      · rw [List.takeWhile_cons_of_pos (by simpa using hslash),
          List.dropWhile_cons_of_pos (by simpa using hslash), List.reverse_cons, List.append_assoc]
        exact hgap'
      · rw [List.takeWhile_cons_of_pos (by simpa using hslash),
          List.dropWhile_cons_of_pos (by simpa using hslash), List.reverse_cons, List.append_assoc,
          List.singleton_append, ← hcopy, List.length_cons, hlen]
        congr 1
        omega

/-- The cursor goes back to the slash before it. -/
theorem back (h : Holds b dst gap src) : ∃ gap', Holds b (dst.dropWhile (· ≠ '/')) gap' src ∧
    Dfs.back b dst.length = some (dst.dropWhile (· ≠ '/')).length ∧
    (dst.dropWhile (· ≠ '/')).length + gap'.length = dst.length + gap.length := by
  induction dst generalizing gap with
  | nil => exact ⟨gap, h, rfl, rfl⟩
  | cons c dst ih =>
    have hread : b[dst.length]? = some c := by
      rw [h.block, List.getElem?_append_left (by simp)]
      simp
    rw [List.length_cons, Dfs.back, hread, Option.bind_eq_bind, Option.bind_some]
    by_cases hc : c = '/'
    · rw [List.dropWhile_cons_of_neg (by simpa using hc), if_neg (by simpa using hc)]
      exact ⟨gap, h, rfl, rfl⟩
    · rw [List.dropWhile_cons_of_pos (by simpa using hc), if_pos hc]
      obtain ⟨gap', hgap', hback, hlen⟩ := ih h.drop
      rw [List.length_cons] at hlen
      exact ⟨gap', hgap', hback, by omega⟩

/-- The last name is copied. -/
theorem copyTurn_end (h : Holds b dst gap src) (hlast : src.dropWhile (· ≠ '/') = []) :
    ∃ b' gap', Holds b' ((src.takeWhile (· ≠ '/')).reverse ++ dst) gap' [] ∧
      copyTurn b (dst.length + gap.length) dst.length =
        some (.done b' ((src.takeWhile (· ≠ '/')).reverse ++ dst).length) := by
  obtain ⟨b', gap', hgap', hcopy⟩ := h.copy
  rw [hlast] at hgap' hcopy
  refine ⟨b', gap', hgap', ?_⟩
  rw [copyTurn, hcopy, Option.bind_eq_bind, Option.bind_some]
  exact if_neg (show NUL ≠ '/' by decide)

/-- A name and the slash behind it are copied, and the other slashes are skipped. -/
theorem copyTurn_next (h : Holds b dst gap src) (hnext : src.dropWhile (· ≠ '/') = c :: t) :
    ∃ b' gap', Holds b' ('/' :: ((src.takeWhile (· ≠ '/')).reverse ++ dst)) gap' (skipSlashes t) ∧
      copyTurn b (dst.length + gap.length) dst.length = some (.next b'
        (('/' :: ((src.takeWhile (· ≠ '/')).reverse ++ dst)).length + gap'.length)
        ('/' :: ((src.takeWhile (· ≠ '/')).reverse ++ dst)).length) := by
  have hslash : c = '/' := by
    have hhead := List.head?_dropWhile_not (· ≠ '/') src
    rw [hnext] at hhead
    simpa using hhead
  obtain ⟨b', gap', hgap', hcopy⟩ := h.copy
  rw [hnext] at hgap' hcopy
  generalize (src.takeWhile (· ≠ '/')).reverse ++ dst = dst' at *
  obtain ⟨gap₁, hlen, hput⟩ := hgap'.pass_put (x := '/') (by decide)
  obtain ⟨gap₂, -, hgap₂, hskip⟩ := hput.skip
  have hlt := hgap'.lt_length
  refine ⟨_, gap₂, hgap₂, ?_⟩
  rw [copyTurn, hcopy, Option.bind_eq_bind, Option.bind_some]
  simp only [List.headD_cons, hslash, if_true]
  rw [write, if_pos (by omega), Option.bind_eq_bind, Option.bind_some,
    show dst'.length + gap'.length + 1 = ('/' :: dst').length + gap₁.length by
      rw [List.length_cons]; omega, hskip]
  rfl

/-- One name is given up, or the path is above the root. -/
theorem upTurn_holds (h : Holds b dst gap src) :
    up_one dst = none ∧ upTurn b (dst.length + gap.length) dst.length = some .null ∨
    ∃ dst' gap', up_one dst = some dst' ∧ Holds b dst' gap' src ∧
      upTurn b (dst.length + gap.length) dst.length =
        some (.next b (dst'.length + gap'.length) dst'.length) := by
  cases dst with
  | nil => exact .inl ⟨rfl, rfl⟩
  | cons c dst =>
    obtain ⟨gap', hgap', hback, hlen⟩ := h.drop.back
    refine .inr ⟨_, gap', rfl, hgap', ?_⟩
    rw [List.length_cons] at hlen
    rw [List.length_cons, upTurn, hback, Option.bind_eq_bind, Option.bind_some, hlen]
    congr 2
    omega

end Holds

section Loop

variable {b b' dst gap src : List Char} {s d s' d' : Nat}

theorem normalizeLoop_next (h : turn b s d = some (.next b' s' d')) :
    normalizeLoop b s d = normalizeLoop b' s' d' := by
  rw [normalizeLoop]
  split <;> simp_all

theorem normalizeLoop_null (h : turn b s d = some .null) : normalizeLoop b s d = some none := by
  rw [normalizeLoop]
  split <;> simp_all

theorem normalizeLoop_done (h : turn b s d = some (.done b' d')) :
    normalizeLoop b s d = some (some (b', d')) := by
  rw [normalizeLoop]
  split <;> simp_all

/-- The loop in the block ends as the one on texts does. -/
def LoopEnds (r : Option (List Char)) (o : Option (Option (List Char × Nat))) : Prop :=
  (r = none → o = some none) ∧
    ∀ dst, r = some dst → ∃ b gap, o = some (some (b, dst.length)) ∧ Holds b dst gap []

theorem LoopEnds.some {dst : List Char} (h : Holds b dst gap []) :
    LoopEnds (some dst) (some (some (b, dst.length))) :=
  ⟨fun hn => (nomatch hn), fun _ hd => Option.some.inj hd ▸ ⟨b, gap, rfl, h⟩⟩

theorem loop_end (h : Holds b dst gap []) :
    LoopEnds (some dst) (normalizeLoop b (dst.length + gap.length) dst.length) := by
  obtain ⟨b', gap', hgap', hcopy⟩ := h.copyTurn_end rfl
  have hread : b[dst.length + gap.length]? = some NUL := h.read 0
  have hturn : turn b (dst.length + gap.length) dst.length = some (.done b' dst.length) := by
    rw [turn, hread, Option.bind_eq_bind, Option.bind_some, if_neg (by decide), hcopy]
    rfl
  rw [normalizeLoop_done hturn]
  exact .some hgap'

/-- A name is given up, and then `src` is read. -/
theorem loop_up (h : Holds b dst gap src) {s d : Nat}
    (hturn : turn b s d = upTurn b (dst.length + gap.length) dst.length)
    (hrest : ∀ dst' gap', up_one dst = some dst' → Holds b dst' gap' src →
      LoopEnds (normalize src dst') (normalizeLoop b (dst'.length + gap'.length) dst'.length)) :
    LoopEnds ((up_one dst).bind fun dst' => normalize src dst') (normalizeLoop b s d) := by
  rcases h.upTurn_holds with ⟨hup, hnull⟩ | ⟨dst', gap', hup, hgap', hnext⟩
  · rw [normalizeLoop_null (hturn.trans hnull), hup]
    exact ⟨fun _ => rfl, fun _ hd => (nomatch hd)⟩
  · rw [normalizeLoop_next (hturn.trans hnext), hup]
    exact hrest dst' gap' hup hgap'

/-- What is not a `.` or a `..` is copied. -/
theorem turn_copy (h : Holds b dst gap src) (h1 : src ≠ ['.']) (h2 : ∀ t, src ≠ '.' :: '/' :: t)
    (h3 : src ≠ ['.', '.']) (h4 : ∀ t, src ≠ '.' :: '.' :: '/' :: t) :
    turn b (dst.length + gap.length) dst.length =
      copyTurn b (dst.length + gap.length) dst.length := by
  have hread := h.read
  have htext := h.src_text
  rcases src with _ | ⟨c, src⟩
  · rw [turn, show b[dst.length + gap.length]? = some NUL from hread 0, Option.bind_eq_bind,
      Option.bind_some, if_neg (show NUL ≠ '.' by decide)]
  rw [turn, show b[dst.length + gap.length]? = some c from hread 0, Option.bind_eq_bind,
    Option.bind_some]
  by_cases hc : c = '.'
  case neg => exact if_neg hc
  subst hc
  rw [if_pos rfl, hread 1]
  rcases src with _ | ⟨c₁, src⟩
  · exact absurd rfl h1
  have hnul : c₁ ≠ NUL := fun heq => htext (by simp [heq])
  have hslash : c₁ ≠ '/' := fun heq => h2 src (by rw [heq])
  simp only [List.cons_append, List.getElem?_cons_succ, List.getElem?_cons_zero, Option.bind_some,
    if_neg hnul, if_neg hslash]
  by_cases hc : c₁ = '.'
  case neg => exact if_neg hc
  subst hc
  rw [if_pos rfl, hread 2]
  rcases src with _ | ⟨c₂, src⟩
  · exact absurd rfl h3
  have hnul : c₂ ≠ NUL := fun heq => htext (by simp [heq])
  have hslash : c₂ ≠ '/' := fun heq => h4 src (by rw [heq])
  simp only [List.cons_append, List.getElem?_cons_succ, List.getElem?_cons_zero, Option.bind_some,
    if_neg hnul, if_neg hslash]

theorem normalize_copy_end (h1 : src ≠ ['.']) (h2 : ∀ t, src ≠ '.' :: '/' :: t)
    (h3 : src ≠ ['.', '.']) (h4 : ∀ t, src ≠ '.' :: '.' :: '/' :: t)
    (hsrc : src.dropWhile (· ≠ '/') = []) :
    normalize src dst = some ((src.takeWhile (· ≠ '/')).reverse ++ dst) := by
  rw [normalize.eq_def]
  split
  · exact absurd rfl h1
  · exact absurd rfl (h2 _)
  · exact absurd rfl h3
  · exact absurd rfl (h4 _)
  · split
    · rfl
    · next h =>
      rw [hsrc] at h
      cases h

theorem normalize_copy_next {c : Char} {t : List Char} (h1 : src ≠ ['.'])
    (h2 : ∀ t, src ≠ '.' :: '/' :: t) (h3 : src ≠ ['.', '.'])
    (h4 : ∀ t, src ≠ '.' :: '.' :: '/' :: t) (hsrc : src.dropWhile (· ≠ '/') = c :: t) :
    normalize src dst = normalize (skipSlashes t)
      ('/' :: ((src.takeWhile (· ≠ '/')).reverse ++ dst)) := by
  rw [normalize.eq_def]
  split
  · exact absurd rfl h1
  · exact absurd rfl (h2 _)
  · exact absurd rfl h3
  · exact absurd rfl (h4 _)
  · split
    · next h =>
      rw [hsrc] at h
      cases h
    · next h =>
      rw [hsrc] at h
      obtain ⟨rfl, rfl⟩ := List.cons.inj h
      rfl

theorem loop_ends (h : Holds b dst gap src) :
    LoopEnds (normalize src dst) (normalizeLoop b (dst.length + gap.length) dst.length) := by
  induction src, dst using normalize.induct generalizing b gap with
  | case1 dst =>
    have h1 := h.pass
    obtain ⟨b', gap', hgap', hcopy⟩ := h1.copyTurn_end rfl
    rw [List.length_append, List.length_singleton, ← Nat.add_assoc] at hcopy
    have hturn : turn b (dst.length + gap.length) dst.length = some (.done b' dst.length) := by
      rw [turn, show b[dst.length + gap.length]? = some '.' from h.read 0,
        show b[dst.length + gap.length + 1]? = some NUL from h.read 1]
      exact hcopy
    rw [normalize_self_end, normalizeLoop_done hturn]
    exact .some hgap'
  | case2 dst src ih =>
    have h2 := h.pass.pass
    obtain ⟨gap', -, hgap', hskip⟩ := h2.skip
    simp only [List.length_append, List.length_singleton, Nat.add_assoc, Nat.reduceAdd] at hskip
    have hturn : turn b (dst.length + gap.length) dst.length =
        some (.next b (dst.length + gap'.length) dst.length) := by
      rw [turn, show b[dst.length + gap.length]? = some '.' from h.read 0,
        show b[dst.length + gap.length + 1]? = some '/' from h.read 1]
      simp only [Option.bind_eq_bind, Option.bind_some, if_true, show '/' ≠ NUL by decide, if_false,
        Nat.add_assoc, hskip]
    rw [normalize_self, normalizeLoop_next hturn]
    exact ih hgap'
  | case3 dst =>
    have h2 := h.pass.pass
    have hturn : turn b (dst.length + gap.length) dst.length =
        upTurn b (dst.length + (gap ++ ['.'] ++ ['.']).length) dst.length := by
      rw [turn, show b[dst.length + gap.length]? = some '.' from h.read 0,
        show b[dst.length + gap.length + 1]? = some '.' from h.read 1,
        show b[dst.length + gap.length + 2]? = some NUL from h.read 2]
      simp only [Option.bind_eq_bind, Option.bind_some, if_true, show '.' ≠ NUL by decide,
        show '.' ≠ '/' by decide, if_false, List.length_append, List.length_singleton, Nat.add_assoc,
        Nat.reduceAdd]
    have hup := loop_up h2 hturn fun dst' gap' _ hgap' => by
      rw [normalize_name_end (by simp) (by simp) (by simp)]
      exact loop_end hgap'
    rw [normalize_up_end]
    have hend : (fun dst' => normalize [] dst') = some := by
      funext dst'
      exact normalize_name_end (by simp) (by simp) (by simp)
    rwa [hend, Option.bind_fun_some] at hup
  | case4 dst src ih =>
    have h3 := h.pass.pass.pass
    obtain ⟨gap', -, hgap', hskip⟩ := h3.skip
    simp only [List.length_append, List.length_singleton, Nat.add_assoc, Nat.reduceAdd] at hskip
    have hturn : turn b (dst.length + gap.length) dst.length =
        upTurn b (dst.length + gap'.length) dst.length := by
      rw [turn, show b[dst.length + gap.length]? = some '.' from h.read 0,
        show b[dst.length + gap.length + 1]? = some '.' from h.read 1,
        show b[dst.length + gap.length + 2]? = some '/' from h.read 2]
      simp only [Option.bind_eq_bind, Option.bind_some, if_true, show '.' ≠ NUL by decide,
        show '.' ≠ '/' by decide, show '/' ≠ NUL by decide, if_false, Nat.add_assoc, hskip]
    rw [normalize_up]
    exact loop_up hgap' hturn fun dst' gap'' _ hgap'' => ih dst' hgap''
  | case5 dst src h1 h2 h3 h4 hsrc =>
    obtain ⟨b', gap', hgap', hcopy⟩ := h.copyTurn_end hsrc
    rw [normalizeLoop_done ((turn_copy h h1 h2 h3 h4).trans hcopy),
      normalize_copy_end h1 h2 h3 h4 hsrc]
    exact .some hgap'
  | case6 dst src h1 h2 h3 h4 dst₁ c t hsrc =>
    rename_i ih
    obtain ⟨b', gap', hgap', hcopy⟩ := h.copyTurn_next hsrc
    rw [normalizeLoop_next ((turn_copy h h1 h2 h3 h4).trans hcopy),
      normalize_copy_next h1 h2 h3 h4 hsrc]
    exact ih hgap'

end Loop

/-! ### The end of the text -/

section Close

variable {b dst gap : List Char}

theorem text_append {rest : List Char} (hdst : NUL ∉ dst) :
    text (dst.reverse ++ NUL :: rest) = dst.reverse := by
  have hall : ∀ c ∈ dst.reverse, decide (c ≠ NUL) = true := by
    intro c hc
    have hne : c ≠ NUL := fun heq => hdst (heq ▸ List.mem_reverse.mp hc)
    simpa using hne
  rw [text, List.takeWhile_append_of_pos hall]
  simp

/-- A terminator behind what was written. -/
theorem write_nul (h : Holds b dst gap []) :
    ∃ rest, write b dst.length NUL = some (dst.reverse ++ NUL :: rest) := by
  have hlt := h.lt_length
  obtain ⟨x, rest, hrest⟩ : ∃ x rest, gap ++ [NUL] = x :: rest :=
    List.exists_cons_of_ne_nil (by simp)
  refine ⟨rest, ?_⟩
  rw [write, if_pos (by omega), h.block, List.nil_append, hrest,
    List.set_append_right _ _ (by rw [List.length_reverse])]
  simp

/-- Where nothing is written, the character in front of the block is read. -/
theorem closeText_nil (b : List Char) : closeText b 0 = none := by
  rw [closeText]
  cases write b 0 NUL <;> rfl

theorem closeText_eq (h : Holds b dst gap []) (hne : dst ≠ []) :
    ∃ b', closeText b dst.length = some b' ∧ text b' = finish dst := by
  obtain ⟨rest, hwrite⟩ := write_nul h
  have hdst := h.dst_text
  rcases dst with _ | ⟨x, _ | ⟨y, dst⟩⟩
  · exact absurd rfl hne
  · have hx : x ≠ NUL := fun heq => hdst (by simp [heq])
    refine ⟨[x] ++ NUL :: rest, ?_, ?_⟩
    · rw [closeText, hwrite]
      exact if_neg hx
    · rw [show [x] ++ NUL :: rest = [x].reverse ++ NUL :: rest from rfl, text_append hdst]
      simp [finish]
  · have hsplit : (x :: y :: dst).reverse ++ NUL :: rest =
        (y :: dst).reverse ++ x :: NUL :: rest := by simp
    have hrest : NUL ∉ y :: dst := fun hmem => hdst (List.mem_cons_of_mem x hmem)
    obtain ⟨z, zs, hz⟩ : ∃ z zs, (y :: dst).reverse = z :: zs :=
      List.exists_cons_of_ne_nil (by simp)
    have hz0 : z ≠ NUL := fun heq =>
      hrest (List.mem_reverse.mp (hz ▸ heq ▸ List.mem_cons_self))
    have hread : ((x :: y :: dst).reverse ++ NUL :: rest)[(y :: dst).length]? = some x := by
      rw [hsplit, List.getElem?_append_right (by simp), List.length_reverse, Nat.sub_self]
      rfl
    by_cases hx : x = '/'
    · refine ⟨(y :: dst).reverse ++ NUL :: NUL :: rest, ?_, ?_⟩
      · have hset : write ((x :: y :: dst).reverse ++ NUL :: rest) (y :: dst).length NUL =
            some ((y :: dst).reverse ++ NUL :: NUL :: rest) := by
          rw [write, if_pos (by simp), hsplit,
            List.set_append_right _ _ (by rw [List.length_reverse]), List.length_reverse, Nat.sub_self]
          rfl
        rw [closeText, hwrite]
        simp only [List.length_cons, Option.bind_eq_bind, Option.bind_some] at hread hset ⊢
        rw [hread, Option.bind_some, if_pos hx, hset, Option.bind_some, hz]
        exact if_neg hz0
      · rw [text_append hrest]
        simp [finish, hx]
    · refine ⟨(x :: y :: dst).reverse ++ NUL :: rest, ?_, ?_⟩
      · rw [closeText, hwrite]
        simp only [List.length_cons, Option.bind_eq_bind, Option.bind_some] at hread ⊢
        rw [hread, Option.bind_some, if_neg hx, hsplit, hz]
        exact if_neg hz0
      · rw [text_append hdst]
        simp [finish, hx]

end Close

/-- In its block `dfs_normalize_path` gives what it gives on texts, except that it reads in front of
the block where the loop writes nothing. -/
theorem dfs_normalize_path_block_eq {memory : Bool} {working_directory filename : List Char}
    {directory : Option (List Char)} {fullpath : List Char}
    (hfull : fullpath = if filename.head? ≠ some '/' then
      directory.getD working_directory ++ '/' :: filename else filename) (htext : NUL ∉ fullpath) :
    dfs_normalize_path_block memory working_directory directory filename =
      if memory ∧ normalize fullpath [] = some [] then none
      else some (dfs_normalize_path memory working_directory directory filename) := by
  have hholds : Holds (fullpath ++ [NUL]) [] [] fullpath := ⟨rfl, htext, by simp⟩
  have hends : LoopEnds (normalize fullpath []) (normalizeLoop (fullpath ++ [NUL]) 0 0) :=
    loop_ends hholds
  rw [dfs_normalize_path_block, dfs_normalize_path]
  simp only [← hfull]
  cases memory with
  | false => simp
  | true =>
    simp only [if_true, true_and]
    cases hdst : normalize fullpath [] with
    | none =>
      rw [hends.1 hdst]
      simp
    | some dst =>
      obtain ⟨b, gap, hloop, hb⟩ := hends.2 dst hdst
      rw [hloop]
      by_cases hnil : dst = []
      · subst hnil
        rw [if_pos rfl]
        simp [closeText_nil]
      · obtain ⟨b', hclose, htext'⟩ := closeText_eq hb hnil
        rw [if_neg (by simpa using hnil)]
        simp [hclose, htext']

end Ab32Vg1.Dfs
