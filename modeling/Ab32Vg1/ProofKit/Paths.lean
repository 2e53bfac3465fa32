import Mathlib.Data.List.Basic

/-! Paths as sequences of words between separators: the words of a text, the walk along them from a
root, and the text of the place where the walk ends.  A place is a stack of names, the innermost first;
the root is the empty name. -/

namespace Ab32Vg1.ProofKit.Path

variable {α : Type}

/-- What stands between the separators of a text, without the empty pieces. -/
def words [DecidableEq α] (sep : α) (s : List α) : List (List α) := (s.splitOn sep).filter (· ≠ [])

/-- One step of a walk: `here` stays, `up` leaves the innermost name, and any other word enters. -/
def enter [DecidableEq α] (here up : List α) (place : List (List α)) (w : List α) : Option (List (List α)) :=
  if w = here then some place
  else if w = up then place.tail? else some (w :: place)

/-- The place where a walk from the root ends. -/
def resolve [DecidableEq α] (here up : List α) (ws : List (List α)) : Option (List (List α)) :=
  ws.foldlM (enter here up) [[]]

/-- The names of a place, the outermost first, each with a separator behind it. -/
def text (sep : α) : List (List α) → List α
  | [] => []
  | c :: cs => text sep cs ++ c ++ [sep]

/-- The text of a place: its names with separators between them. -/
def render (sep : α) : List (List α) → List α
  | [] => [sep]
  | c :: cs => if text sep cs ++ c = [] then [sep] else text sep cs ++ c

section Words

variable [DecidableEq α] {sep : α} {w s : List α}

@[simp] theorem words_nil : words sep [] = [] := by simp [words]

@[simp] theorem words_sep : words sep (sep :: s) = words sep s := by
  rw [words, List.splitOn_cons_eq_if_modifyHead, if_pos (by simp), List.filter_cons_of_neg (by simp)]
  rfl

theorem words_skip : words sep (s.dropWhile (· = sep)) = words sep s := by
  induction s with
  | nil => rfl
  | cons c s ih =>
    by_cases hc : c = sep
    · subst hc
      simpa using ih
    · rw [List.dropWhile_cons_of_neg (by simpa using hc)]

/-- A word up to a separator. -/
theorem words_append (hw : sep ∉ w) (hne : w ≠ []) :
    words sep (w ++ sep :: s) = w :: words sep s := by
  rw [words, List.splitOn_append_cons_self_of_not_mem hw,
    List.filter_cons_of_pos (by simpa using hne)]
  rfl

theorem words_single (hw : sep ∉ w) (hne : w ≠ []) : words sep w = [w] := by
  rw [words, List.splitOn_eq_singleton hw]
  simpa using hne

theorem not_mem_of_mem_splitOn (h : w ∈ s.splitOn sep) : sep ∉ w := by
  induction s generalizing w with
  | nil =>
    obtain rfl : w = [] := by simpa using h
    simp
  | cons c s ih =>
    rw [List.splitOn_cons_eq_if_modifyHead] at h
    by_cases hc : c = sep
    · rw [if_pos (by simpa using hc)] at h
      rcases List.mem_cons.mp h with rfl | h
      · simp
      · exact ih h
    · rw [if_neg (by simpa using hc)] at h
      obtain ⟨x, xs, hsplit⟩ := List.exists_cons_of_ne_nil (List.splitOn_ne_nil sep s)
      rw [hsplit] at h ih
      rcases List.mem_cons.mp h with rfl | h
      · have hx := ih (w := x) (by simp)
        simpa [hx] using fun heq => hc heq.symm
      · exact ih (by simp [h])

/-- The words of a text are not empty and hold no separator. -/
theorem of_mem_words (h : w ∈ words sep s) : w ≠ [] ∧ sep ∉ w := by
  obtain ⟨hw, hne⟩ := List.mem_filter.mp h
  exact ⟨by simpa using hne, not_mem_of_mem_splitOn hw⟩

end Words

/-- A word that names something. -/
structure Proper (sep : α) (here up c : List α) : Prop where
  ne_nil : c ≠ []
  no_sep : sep ∉ c
  ne_self : c ≠ here
  ne_up : c ≠ up

/-- A text that starts at the root and names each place on the way once. -/
def Normal (sep : α) (here up p : List α) : Prop :=
  ∃ names, (∀ c ∈ names, Proper sep here up c) ∧
    p = if names = [] then [sep] else names.flatMap (sep :: ·)

section Walk

variable [DecidableEq α] {sep : α} {here up : List α} {ws place : List (List α)}

/-- A walk along words stays at a place of proper names, below the root or not. -/
theorem foldlM_enter (hws : ∀ w ∈ ws, w ≠ [] ∧ sep ∉ w)
    (hplace : ∃ names, (∀ c ∈ names, Proper sep here up c) ∧ (place = names ++ [[]] ∨ place = names))
    {place' : List (List α)} (h : ws.foldlM (enter here up) place = some place') :
    ∃ names, (∀ c ∈ names, Proper sep here up c) ∧ (place' = names ++ [[]] ∨ place' = names) := by
  induction ws generalizing place with
  | nil =>
    obtain rfl : place = place' := by simpa using h
    exact hplace
  | cons w ws ih =>
    obtain ⟨next, hnext, hrest⟩ := Option.bind_eq_some_iff.mp (List.foldlM_cons.symm.trans h)
    obtain ⟨hw, hws⟩ := List.forall_mem_cons.mp hws
    refine ih hws ?_ hrest
    obtain ⟨names, hnames, hp⟩ := hplace
    unfold enter at hnext
    split at hnext
    · exact ⟨names, hnames, Option.some.inj hnext ▸ hp⟩
    split at hnext
    · -- the innermost name is left, or the root
      cases names with
      | nil =>
        rcases hp with rfl | rfl
        · exact ⟨[], by simp, Or.inr (Option.some.inj hnext).symm⟩
        · cases hnext
      | cons c names =>
        refine ⟨names, fun x hx => hnames x (List.mem_cons_of_mem c hx), ?_⟩
        rcases hp with rfl | rfl
        · exact Or.inl (Option.some.inj hnext).symm
        · exact Or.inr (Option.some.inj hnext).symm
    · next hself hup =>
      refine ⟨w :: names, List.forall_mem_cons.mpr ⟨⟨hw.1, hw.2, hself, hup⟩, hnames⟩, ?_⟩
      rcases hp with rfl | rfl
      · exact Or.inl (Option.some.inj hnext).symm
      · exact Or.inr (Option.some.inj hnext).symm

theorem resolve_place {s : List α} (h : resolve here up (words sep s) = some place) :
    ∃ names, (∀ c ∈ names, Proper sep here up c) ∧ (place = names ++ [[]] ∨ place = names) :=
  foldlM_enter (fun _ => of_mem_words) ⟨[], by simp, Or.inl rfl⟩ h

end Walk

section Places

variable {sep : α} {here up c : List α} {place names : List (List α)}

theorem text_rooted (names : List (List α)) :
    text sep (names ++ [[]]) = names.reverse.flatMap (sep :: ·) ++ [sep] := by
  induction names with
  | nil => rfl
  | cons c names ih => simp [text, ih]

/-- The text of a place below the root, its names from the outermost. -/
def absolute (sep : α) (names : List (List α)) : List α :=
  if names = [] then [sep] else names.flatMap (sep :: ·)

theorem render_rooted (names : List (List α)) :
    render sep (names ++ [[]]) = absolute sep names.reverse := by
  cases names with
  | nil => rfl
  | cons c names =>
    have hne : text sep (names ++ [[]]) ++ c ≠ [] := by simp [text_rooted]
    rw [List.cons_append, render, if_neg hne, text_rooted, absolute, if_neg (by simp)]
    simp

/-- The text of a place below the root is normal. -/
theorem render_normal (hnames : ∀ c ∈ names, Proper sep here up c) :
    Normal sep here up (render sep (names ++ [[]])) :=
  ⟨names.reverse, by simpa using hnames, render_rooted names⟩

theorem absolute_eq_cons (sep : α) (names : List (List α)) : ∃ t, absolute sep names = sep :: t := by
  cases names with
  | nil => exact ⟨[], rfl⟩
  | cons c names => exact ⟨c ++ names.flatMap (sep :: ·), by simp [absolute]⟩

theorem head_name {s t : List α} (hs : s.head? ≠ some sep) (hc : c ≠ [] ∧ sep ∉ c) :
    (s ++ c ++ t).head? ≠ some sep := by
  cases s with
  | cons x s => exact hs
  | nil =>
    obtain ⟨x, c, rfl⟩ := List.exists_cons_of_ne_nil hc.1
    intro heq
    obtain rfl := Option.some.inj heq
    exact hc.2 List.mem_cons_self

theorem text_head (hplace : ∀ c ∈ place, c ≠ [] ∧ sep ∉ c) : (text sep place).head? ≠ some sep := by
  induction place with
  | nil => simp [text]
  | cons c place ih =>
    obtain ⟨hc, hplace⟩ := List.forall_mem_cons.mp hplace
    exact head_name (ih hplace) hc

/-- The text of a place that is not below the root does not start at the root. -/
theorem render_head (hplace : ∀ c ∈ place, c ≠ [] ∧ sep ∉ c) (hne : place ≠ []) :
    (render sep place).head? ≠ some sep := by
  obtain ⟨c, cs, rfl⟩ := List.exists_cons_of_ne_nil hne
  obtain ⟨hc, hcs⟩ := List.forall_mem_cons.mp hplace
  rw [render, if_neg (by simp [hc.1]), ← List.append_nil (_ ++ c)]
  exact head_name (text_head hcs) hc

end Places

section Rooted

variable [DecidableEq α] {here up : List α} {ws place names base : List (List α)}

/-- One step of a walk that stays at the root where it would leave it. -/
def follow (here up : List α) (names : List (List α)) (w : List α) : List (List α) :=
  if w = here then names else if w = up then names.tail else w :: names

/-- The lowest level of a walk, above (or, where it is negative, under) the level of its start. -/
def lowest (here up : List α) : List (List α) → Int
  | [] => 0
  | w :: ws =>
    if w = here then lowest here up ws
    else if w = up then min 0 (lowest here up ws - 1) else min 0 (lowest here up ws + 1)

theorem lowest_nonpos (here up : List α) (ws : List (List α)) : lowest here up ws ≤ 0 := by
  induction ws with
  | nil => exact Int.le_refl 0
  | cons w ws ih =>
    rw [lowest]
    split_ifs <;> omega

/-- A walk fails when it goes lower than its start lies. -/
theorem foldlM_enter_eq_none :
    ws.foldlM (enter here up) place = none ↔ place.length + lowest here up ws < 0 := by
  induction ws generalizing place with
  | nil => simp [lowest]
  | cons w ws ih =>
    have hle := lowest_nonpos here up ws
    rw [List.foldlM_cons, enter, lowest]
    split_ifs with hself hup
    · exact ih
    · cases place with
      | nil =>
        simp only [List.tail?_nil, Option.bind_eq_bind, Option.bind_none, List.length_nil, true_iff]
        omega
      | cons c place =>
        rw [List.tail?_cons, Option.bind_eq_bind, Option.bind_some, ih, List.length_cons]
        omega
    · rw [Option.bind_eq_bind, Option.bind_some, ih, List.length_cons]
      omega

/-- A walk that does not go lower than `base` stays over it. -/
theorem foldlM_enter_over (h : 0 ≤ names.length + lowest here up ws) :
    ws.foldlM (enter here up) (names ++ base) = some (ws.foldl (follow here up) names ++ base) := by
  induction ws generalizing names with
  | nil => rfl
  | cons w ws ih =>
    have hle := lowest_nonpos here up ws
    rw [lowest] at h
    rw [List.foldlM_cons, List.foldl_cons, enter, follow]
    split_ifs at h ⊢ with hself hup
    · exact ih h
    · cases names with
      | nil =>
        simp only [List.length_nil] at h
        omega
      | cons c names =>
        rw [List.length_cons] at h
        rw [List.cons_append, List.tail?_cons]
        exact ih (by omega)
    · exact @ih (w :: names) (by rw [List.length_cons]; omega)

theorem foldlM_enter_names (hws : ∀ w ∈ ws, w ≠ []) (hplace : ∀ c ∈ place, c ≠ [])
    {place' : List (List α)} (h : ws.foldlM (enter here up) place = some place') :
    ∀ c ∈ place', c ≠ [] := by
  induction ws generalizing place with
  | nil => exact Option.some.inj h ▸ hplace
  | cons w ws ih =>
    obtain ⟨next, hnext, hrest⟩ := Option.bind_eq_some_iff.mp (List.foldlM_cons.symm.trans h)
    obtain ⟨hw, hws⟩ := List.forall_mem_cons.mp hws
    refine ih hws ?_ hrest
    rw [enter] at hnext
    split_ifs at hnext
    · exact Option.some.inj hnext ▸ hplace
    · cases place with
      | nil => cases hnext
      | cons c place => exact Option.some.inj hnext ▸ (List.forall_mem_cons.mp hplace).2
    · exact Option.some.inj hnext ▸ List.forall_mem_cons.mpr ⟨hw, hplace⟩

/-- A walk that leaves the root once, and goes no further, ends at a place without a root. -/
theorem foldlM_enter_left (hws : ∀ w ∈ ws, w ≠ []) (hnames : ∀ c ∈ names, c ≠ [])
    (h : names.length + lowest here up ws = -1) {place' : List (List α)}
    (hwalk : ws.foldlM (enter here up) (names ++ [[]]) = some place') : ∀ c ∈ place', c ≠ [] := by
  induction ws generalizing names with
  | nil =>
    simp only [lowest] at h
    omega
  | cons w ws ih =>
    have hle := lowest_nonpos here up ws
    obtain ⟨next, hnext, hrest⟩ := Option.bind_eq_some_iff.mp (List.foldlM_cons.symm.trans hwalk)
    obtain ⟨hw, hws⟩ := List.forall_mem_cons.mp hws
    rw [lowest] at h
    rw [enter] at hnext
    split_ifs at h hnext with hself hup
    · obtain rfl := Option.some.inj hnext
      exact ih hws hnames h hrest
    · cases names with
      | nil =>
        obtain rfl := Option.some.inj hnext
        exact foldlM_enter_names hws (by simp) hrest
      | cons c names =>
        obtain rfl := Option.some.inj hnext
        rw [List.length_cons] at h
        exact ih hws (List.forall_mem_cons.mp hnames).2 (by omega) hrest
    · obtain rfl := Option.some.inj hnext
      refine @ih (w :: names) hws (List.forall_mem_cons.mpr ⟨hw, hnames⟩) ?_ hrest
      rw [List.length_cons]
      omega

end Rooted

/-! ### Normal texts -/

section NormalText

variable [DecidableEq α] {sep : α} {here up : List α} {names : List (List α)}

/-- The words of two texts with a separator between them. -/
theorem words_append_sep (s t : List α) :
    words sep (s ++ sep :: t) = words sep s ++ words sep t := by
  rw [words, List.splitOn_append_cons_self]
  exact List.filter_append ..

/-- The words of a normal text are its names. -/
theorem words_absolute (hnames : ∀ c ∈ names, Proper sep here up c) :
    words sep (absolute sep names) = names := by
  have hflat : words sep (names.flatMap (sep :: ·)) = names := by
    induction names with
    | nil => exact words_nil
    | cons c names ih =>
      obtain ⟨hc, hnames⟩ := List.forall_mem_cons.mp hnames
      rw [List.flatMap_cons, List.cons_append, words_sep]
      cases names with
      | nil => simpa using words_single hc.no_sep hc.ne_nil
      | cons d names =>
        rw [List.flatMap_cons, List.cons_append] at ih ⊢
        rw [words_append hc.no_sep hc.ne_nil, ← words_sep, ih hnames]
  rw [absolute]
  split
  · next hnil => simp [hnil]
  · exact hflat

/-- A walk along proper names enters each of them. -/
theorem foldl_follow_names (hnames : ∀ c ∈ names, Proper sep here up c) (place : List (List α)) :
    names.foldl (follow here up) place = names.reverse ++ place := by
  induction names generalizing place with
  | nil => rfl
  | cons c names ih =>
    obtain ⟨hc, hnames⟩ := List.forall_mem_cons.mp hnames
    rw [List.foldl_cons, follow, if_neg hc.ne_self, if_neg hc.ne_up, ih hnames]
    simp

/-- A walk along words that stays at the root ends at a place of proper names. -/
theorem foldl_follow_proper {ws : List (List α)} (hws : ∀ w ∈ ws, w ≠ [] ∧ sep ∉ w)
    (hnames : ∀ c ∈ names, Proper sep here up c) :
    ∀ c ∈ ws.foldl (follow here up) names, Proper sep here up c := by
  induction ws generalizing names with
  | nil => exact hnames
  | cons w ws ih =>
    obtain ⟨hw, hws⟩ := List.forall_mem_cons.mp hws
    refine ih hws ?_
    rw [follow]
    split_ifs with hself hup
    · exact hnames
    · exact fun c hc => hnames c (List.mem_of_mem_tail hc)
    · exact List.forall_mem_cons.mpr ⟨⟨hw.1, hw.2, hself, hup⟩, hnames⟩

theorem lowest_names (hnames : ∀ c ∈ names, Proper sep here up c) (ws : List (List α)) :
    lowest here up (names ++ ws) = min 0 (names.length + lowest here up ws) := by
  have hle := lowest_nonpos here up ws
  induction names with
  | nil => simp; omega
  | cons c names ih =>
    obtain ⟨hc, hnames⟩ := List.forall_mem_cons.mp hnames
    rw [List.cons_append, lowest, if_neg hc.ne_self, if_neg hc.ne_up, ih hnames, List.length_cons]
    push_cast
    omega

end NormalText

end Ab32Vg1.ProofKit.Path
