import Ab32Vg1.Dfs.PathBuffer

/-! `dfs_normalize_path` against the lexical resolution of a name. -/

namespace Ab32Vg1.Dfs

open ProofKit

/-- The names on the way from the root to where a file name starts. -/
def start (directory filename : List Char) : List (List Char) :=
  if filename.head? = some '/' then [] else Path.words '/' directory

/-- The names on the way from the root to what a file name means; the parent of the root is the root. -/
def resolution (directory filename : List Char) : List (List Char) :=
  ((Path.words '/' filename).foldl (Path.follow ['.'] ['.', '.']) (start directory filename).reverse).reverse

/-- The level of the highest place on the way along a file name; the root has level 0, and the levels
above it are negative. -/
def topLevel (directory filename : List Char) : Int :=
  (start directory filename).length + Path.lowest ['.'] ['.', '.'] (Path.words '/' filename)

/-- What `dfs_normalize_path` promises: it stays in its block, and a path that it gives is the normal
text of the resolution, which it maps to itself. -/
def Normalizes (memory : Bool) (working_directory : List Char) (directory : Option (List Char))
    (filename : List Char) : Prop :=
  ∃ result, dfs_normalize_path_block memory working_directory directory filename = some result ∧
    ∀ p, result = some p →
      Path.Normal '/' ['.'] ['.', '.'] p ∧
      p = Path.absolute '/' (resolution (directory.getD working_directory) filename) ∧
      ∀ working_directory' directory',
        dfs_normalize_path_block true working_directory' directory' p = some (some p)

section Rooted

variable {working_directory directory filename t p : List Char} {dir : Option (List Char)}

theorem text_no_nul (b : List Char) : NUL ∉ text b := by
  intro hmem
  simpa using List.mem_takeWhile_imp hmem

theorem block_no_nul {memory : Bool}
    (h : dfs_normalize_path_block memory working_directory dir filename = some (some p)) :
    NUL ∉ p := by
  simp only [dfs_normalize_path_block] at h
  split at h
  case isFalse => cases h
  obtain ⟨r, -, h⟩ := Option.bind_eq_some_iff.mp h
  cases r with
  | none => cases h
  | some r =>
    obtain ⟨b, -, h⟩ := Option.bind_eq_some_iff.mp h
    obtain rfl := Option.some.inj (Option.some.inj h)
    exact text_no_nul b

/-- The string that is rewritten. -/
def joined (directory filename : List Char) : List Char :=
  if filename.head? ≠ some '/' then directory ++ '/' :: filename else filename

/-- What the function gives, from the walk along the words of the string. -/
theorem block_of_walk (hfull : '/' :: t = joined (dir.getD working_directory) filename)
    (htext : NUL ∉ '/' :: t) :
    dfs_normalize_path_block true working_directory dir filename =
      (Path.resolve ['.'] ['.', '.'] (Path.words '/' ('/' :: t))).elim (some none) fun place =>
        if place = [] then none else some (some (Path.render '/' place)) := by
  have hroot := normalize_root t
  have hpath : dfs_normalize_path true working_directory dir filename =
      (normalize ('/' :: t) []).map finish := by
    rw [hfull]
    rfl
  rw [dfs_normalize_path_block_eq hfull htext, hpath]
  cases hplace : Path.resolve ['.'] ['.', '.'] (Path.words '/' ('/' :: t)) with
  | none =>
    rw [hplace, Option.map_none, Option.map_eq_none_iff] at hroot
    rw [hroot]
    rfl
  | some place =>
    rw [hplace, Option.map_some, Option.map_eq_some_iff] at hroot
    obtain ⟨dst, hdst, hwritten⟩ := hroot
    obtain ⟨hfinish, hempty⟩ := Prod.mk.inj hwritten
    rw [hdst, Option.map_some, hfinish]
    by_cases hnil : place = []
    · subst hnil
      obtain rfl : dst = [] := by simpa using hempty
      rfl
    · have hne : dst ≠ [] := fun heq => hnil (by simpa [heq] using hempty.symm)
      rw [if_neg fun h => hne (Option.some.inj h.2), Option.elim_some, if_neg hnil]

/-- A walk that does not leave the root. -/
theorem block_below (hfull : '/' :: t = joined (dir.getD working_directory) filename)
    (htext : NUL ∉ '/' :: t)
    (hlevel : Path.lowest ['.'] ['.', '.'] (Path.words '/' ('/' :: t)) = 0) :
    dfs_normalize_path_block true working_directory dir filename = some (some (Path.absolute '/'
      ((Path.words '/' ('/' :: t)).foldl (Path.follow ['.'] ['.', '.']) []).reverse)) := by
  have hwalk : Path.resolve ['.'] ['.', '.'] (Path.words '/' ('/' :: t)) = some
      ((Path.words '/' ('/' :: t)).foldl (Path.follow ['.'] ['.', '.']) [] ++ [[]]) :=
    @Path.foldlM_enter_over _ _ _ _ _ [] _ (by rw [hlevel]; exact Int.le_refl 0)
  rw [block_of_walk hfull htext, hwalk, Option.elim_some, if_neg (by simp), Path.render_rooted]

/-- A walk that goes two levels above the root. -/
theorem block_above (hfull : '/' :: t = joined (dir.getD working_directory) filename)
    (htext : NUL ∉ '/' :: t)
    (hlevel : Path.lowest ['.'] ['.', '.'] (Path.words '/' ('/' :: t)) < -1) :
    dfs_normalize_path_block true working_directory dir filename = some none := by
  have hwalk : Path.resolve ['.'] ['.', '.'] (Path.words '/' ('/' :: t)) = none := by
    rw [Path.resolve, Path.foldlM_enter_eq_none, List.length_singleton]
    omega
  rw [block_of_walk hfull htext, hwalk, Option.elim_none]

/-- A walk that goes one level above the root: no path that is given is absolute. -/
theorem block_left (hfull : '/' :: t = joined (dir.getD working_directory) filename)
    (htext : NUL ∉ '/' :: t)
    (hlevel : Path.lowest ['.'] ['.', '.'] (Path.words '/' ('/' :: t)) = -1) :
    dfs_normalize_path_block true working_directory dir filename = none ∨
      ∃ p, dfs_normalize_path_block true working_directory dir filename = some (some p) ∧
        p.head? ≠ some '/' := by
  have hwords : ∀ w ∈ Path.words '/' ('/' :: t), w ≠ [] ∧ '/' ∉ w := fun w => Path.of_mem_words
  obtain ⟨place, hwalk⟩ : ∃ place,
      Path.resolve ['.'] ['.', '.'] (Path.words '/' ('/' :: t)) = some place := by
    rw [← Option.ne_none_iff_exists', Ne, Path.resolve, Path.foldlM_enter_eq_none,
      List.length_singleton]
    omega
  have hnames : ∀ c ∈ place, c ≠ [] :=
    @Path.foldlM_enter_left _ _ _ _ _ [] (fun w hw => (hwords w hw).1) (by simp)
      (by simpa using hlevel) place hwalk
  have hproper : ∀ c ∈ place, '/' ∉ c := by
    obtain ⟨names, hp, rfl | rfl⟩ := Path.resolve_place hwalk
    · exact absurd rfl (hnames [] (by simp))
    · exact fun c hc => (hp c hc).no_sep
  rw [block_of_walk hfull htext, hwalk, Option.elim_some]
  by_cases hnil : place = []
  · exact Or.inl (if_pos hnil)
  · exact Or.inr ⟨_, if_neg hnil, Path.render_head (fun c hc => ⟨hnames c hc, hproper c hc⟩) hnil⟩

/-- A normal path is mapped to itself. -/
theorem block_normal {names : List (List Char)}
    (hnames : ∀ c ∈ names, Path.Proper '/' ['.'] ['.', '.'] c) (hp : p = Path.absolute '/' names)
    (htext : NUL ∉ p) : dfs_normalize_path_block true working_directory dir p = some (some p) := by
  obtain ⟨t, ht⟩ := Path.absolute_eq_cons '/' names
  have hwords := Path.words_absolute hnames
  have hlevel := Path.lowest_names hnames []
  rw [List.append_nil, Path.lowest, Int.add_zero] at hlevel
  subst hp
  rw [ht] at htext hwords ⊢
  have hjoin : '/' :: t = joined (dir.getD working_directory) ('/' :: t) := by simp [joined]
  rw [block_below hjoin htext (by rw [hwords, hlevel]; omega), hwords, Path.foldl_follow_names hnames,
    List.append_nil, List.reverse_reverse, ht]

end Rooted

/-- The string that is rewritten holds the way to the start and the words of the name. -/
theorem joined_words {directory filename : List Char}
    (hdir : Path.Normal '/' ['.'] ['.', '.'] directory) :
    ∃ t, '/' :: t = joined directory filename ∧ (∀ c ∈ start directory filename,
        Path.Proper '/' ['.'] ['.', '.'] c) ∧
      Path.words '/' ('/' :: t) = start directory filename ++ Path.words '/' filename := by
  obtain ⟨names, hnames, rfl⟩ := hdir
  rw [start, joined]
  by_cases habs : filename.head? = some '/'
  · obtain ⟨t, rfl⟩ : ∃ t, filename = '/' :: t := by
      cases filename with
      | nil => cases habs
      | cons c t => exact ⟨t, by rw [Option.some.inj habs]⟩
    exact ⟨t, by simp, by simp, by simp⟩
  · obtain ⟨u, hu⟩ := Path.absolute_eq_cons '/' names
    have hwords := Path.words_absolute hnames
    rw [if_neg habs, if_pos habs, ← Path.absolute, hwords]
    refine ⟨u ++ '/' :: filename, by rw [hu]; rfl, hnames, ?_⟩
    rw [← List.cons_append, ← hu, Path.words_append_sep, hwords]

/-- `dfs_normalize_path` keeps its promise unless the way along the name leaves the root by exactly one
level. -/
theorem dfs_normalize_path_normalizes {memory : Bool} {working_directory filename : List Char}
    {directory : Option (List Char)}
    (hdir : Path.Normal '/' ['.'] ['.', '.'] (directory.getD working_directory))
    (htext : NUL ∉ directory.getD working_directory) (hname : NUL ∉ filename) :
    Normalizes memory working_directory directory filename ↔
      memory = false ∨ topLevel (directory.getD working_directory) filename ≠ -1 := by
  obtain ⟨t, hfull, hstart, hwords⟩ := @joined_words _ filename hdir
  have hnul : NUL ∉ '/' :: t := by
    rw [hfull, joined]
    split
    · simp [htext, hname, show NUL ≠ '/' by decide]
    · exact hname
  have hlow := Path.lowest_names hstart (Path.words '/' filename)
  rw [← hwords, ← topLevel] at hlow
  cases memory with
  | false => simp [Normalizes, dfs_normalize_path_block]
  | true =>
    simp only [Bool.true_eq_false, false_or]
    constructor
    · rintro ⟨result, hblock, hgood⟩ hleft
      rcases block_left hfull hnul (by omega) with h | ⟨p, h, hhead⟩
      · rw [h] at hblock
        cases hblock
      · obtain rfl := Option.some.inj (h.symm.trans hblock)
        obtain ⟨u, hu⟩ := Path.absolute_eq_cons '/'
          (resolution (directory.getD working_directory) filename)
        exact hhead (by rw [(hgood p rfl).2.1, hu]; rfl)
    · intro hlevel
      by_cases habove : topLevel (directory.getD working_directory) filename < 0
      · refine ⟨none, block_above hfull hnul (by omega), fun p hp => ?_⟩
        cases hp
      · have hblock := block_below hfull hnul (by omega)
        have hres : ((Path.words '/' ('/' :: t)).foldl (Path.follow ['.'] ['.', '.']) []).reverse =
            resolution (directory.getD working_directory) filename := by
          rw [hwords, List.foldl_append, Path.foldl_follow_names hstart, List.append_nil]
          rfl
        have hproper : ∀ c ∈ resolution (directory.getD working_directory) filename,
            Path.Proper '/' ['.'] ['.', '.'] c := by
          rw [← hres]
          intro c hc
          exact Path.foldl_follow_proper (fun w => Path.of_mem_words) (by simp) c
            (List.mem_reverse.mp hc)
        rw [hres] at hblock
        refine ⟨_, hblock, fun p hp => ?_⟩
        have habs := (Option.some.inj hp).symm
        refine ⟨⟨_, hproper, habs⟩, habs, fun working_directory' directory' => ?_⟩
        exact block_normal hproper habs (block_no_nul (hblock.trans (congrArg some hp)))

/-- From the directory `/a`, the name `../b` leads to `/b`. -/
theorem dfs_normalize_path_normalizes_parent :
    Normalizes true ['/'] (some ['/', 'a']) ['.', '.', '/', 'b'] ∧
      resolution ['/', 'a'] ['.', '.', '/', 'b'] = [['b']] := by
  have hdir : Path.Normal '/' ['.'] ['.', '.'] ((some ['/', 'a']).getD ['/']) :=
    ⟨[['a']], by simpa using ⟨by decide, by decide, by decide, by decide⟩, rfl⟩
  exact ⟨(dfs_normalize_path_normalizes hdir (by decide) (by decide)).mpr (Or.inr (by decide)),
    by decide⟩

/-- The name `/../a` gives `a`, which is not absolute, and for `/..` the character in front of the
block is read. -/
theorem parent_of_root_lost :
    dfs_normalize_path_block true ['/'] none ['/', '.', '.', '/', 'a'] = some (some ['a']) ∧
      ¬ Normalizes true ['/'] none ['/', '.', '.', '/', 'a'] ∧
      dfs_normalize_path_block true ['/'] none ['/', '.', '.'] = none ∧
      ¬ Normalizes true ['/'] none ['/', '.', '.'] := by
  have hroot : Path.resolve ['.'] ['.', '.'] (Path.words '/' ['/', '.', '.', '/', 'a']) = some [['a']] := by
    decide
  have hup : Path.resolve ['.'] ['.', '.'] (Path.words '/' ['/', '.', '.']) = some [] := by decide
  have ha := @block_of_walk ['/'] ['/', '.', '.', '/', 'a'] _ none rfl (by decide)
  have hfault := @block_of_walk ['/'] ['/', '.', '.'] _ none rfl (by decide)
  rw [hroot] at ha
  rw [hup] at hfault
  refine ⟨ha, ?_, hfault, ?_⟩
  · rintro ⟨result, hblock, hgood⟩
    have hsome := (hgood ['a'] (Option.some.inj (hblock.symm.trans ha))).2.1
    exact absurd hsome (by decide)
  · rintro ⟨result, hblock, -⟩
    exact absurd (hblock.symm.trans hfault) (by simp)

end Ab32Vg1.Dfs
