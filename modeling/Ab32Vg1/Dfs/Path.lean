import Ab32Vg1.ProofKit.Paths
import Mathlib.Data.List.TakeWhile

/-! `dfs_normalize_path` of `dfs.c`.  A string is the list of its characters, without the terminator. -/

namespace Ab32Vg1.Dfs

open ProofKit

/-- `while (*src == '/') src ++;` -/
def skipSlashes (src : List Char) : List Char := src.dropWhile (· = '/')

theorem skipSlashes_length (src : List Char) : (skipSlashes src).length ≤ src.length :=
  List.length_dropWhile_le _ src

/-- `up_one`: `dst` is left at the slash before it, or there is none. -/
def up_one : (dst : List Char) → Option (List Char)
  | [] => none
  | _ :: dst => some (dst.dropWhile (· ≠ '/'))

/-- The loop of `dfs_normalize_path`.  The result is written over what was read of the string; `dst` is
what was written, the last character first. -/
@[grind] def normalize (src dst : List Char) : Option (List Char) :=
  match src with
  | ['.'] => some dst
  | '.' :: '/' :: src => normalize (skipSlashes src) dst
  | ['.', '.'] => up_one dst
  | '.' :: '.' :: '/' :: src => do
    let dst ← up_one dst
    normalize (skipSlashes src) dst
  | src =>
    let dst := (src.takeWhile (· ≠ '/')).reverse ++ dst
    match hsrc : src.dropWhile (· ≠ '/') with
    | [] => some dst
    | _ :: src => normalize (skipSlashes src) ('/' :: dst)
termination_by src.length
decreasing_by
  · have := skipSlashes_length src
    simp only [List.length_cons]
    omega
  · have := skipSlashes_length src
    simp only [List.length_cons]
    omega
  · rename_i text _
    have hle := List.length_dropWhile_le (· ≠ '/') text
    have := skipSlashes_length src
    rw [hsrc] at hle
    simp only [List.length_cons] at hle
    omega

/-- The end of `dfs_normalize_path`: a slash at the end goes, and nothing becomes the root. -/
def finish (dst : List Char) : List Char :=
  let fullpath := if dst.length ≠ 1 ∧ dst.head? = some '/' then dst.tail else dst
  if fullpath = [] then ['/'] else fullpath.reverse

/-- `memory` says that the copy of the name could be allocated. -/
def dfs_normalize_path (memory : Bool) (working_directory : List Char) (directory : Option (List Char))
    (filename : List Char) : Option (List Char) :=
  let directory := directory.getD working_directory
  let fullpath := if filename.head? ≠ some '/' then directory ++ '/' :: filename else filename
  if memory then (normalize fullpath []).map finish else none

section Normalize

variable {src dst w t : List Char}

@[simp] theorem words_skipSlashes (src : List Char) :
    Path.words '/' (skipSlashes src) = Path.words '/' src := Path.words_skip

/-- The slashes behind a name are skipped, and no other character is. -/
theorem skipSlashes_head (src : List Char) : (skipSlashes src).head? ≠ some '/' := by
  induction src with
  | nil => simp [skipSlashes]
  | cons c src ih =>
    by_cases hc : c = '/'
    · simpa [skipSlashes, hc] using ih
    · simpa [skipSlashes, hc] using hc

theorem normalize_self_end : normalize ['.'] dst = some dst := by rw [normalize]

theorem normalize_self : normalize ('.' :: '/' :: t) dst = normalize (skipSlashes t) dst := by
  rw [normalize]

theorem normalize_up_end : normalize ['.', '.'] dst = up_one dst := by rw [normalize]

theorem normalize_up : normalize ('.' :: '.' :: '/' :: t) dst =
    (up_one dst).bind fun dst => normalize (skipSlashes t) dst := by
  rw [normalize]
  rfl

/-- A name at the end of the string is copied. -/
theorem normalize_name_end (hw : '/' ∉ w) (hself : w ≠ ['.']) (hup : w ≠ ['.', '.']) :
    normalize w dst = some (w.reverse ++ dst) := by
  have hall : ∀ x ∈ w, decide (x ≠ '/') = true := by
    intro x hx
    have : x ≠ '/' := fun heq => hw (heq ▸ hx)
    simpa using this
  have hdrop : w.dropWhile (fun x => decide (x ≠ '/')) = [] := by
    simpa using hall
  unfold normalize
  split
  · exact absurd rfl hself
  · simp at hw
  · exact absurd rfl hup
  · simp at hw
  · split
    · rw [List.takeWhile_eq_self_iff.mpr hall]
    · next h => rw [hdrop] at h; cases h

/-- A text begins with one name only. -/
theorem name_unique {u s : List Char} (hw : '/' ∉ w) (hu : '/' ∉ u) (h : w ++ '/' :: t = u ++ '/' :: s) :
    w = u := by
  induction w generalizing u with
  | nil =>
    cases u with
    | nil => rfl
    | cons c u =>
      obtain ⟨rfl, -⟩ := List.cons.inj h
      simp at hu
  | cons c w ih =>
    cases u with
    | nil =>
      obtain ⟨rfl, -⟩ := List.cons.inj h
      simp at hw
    | cons d u =>
      obtain ⟨rfl, hrest⟩ := List.cons.inj h
      simp only [List.mem_cons, not_or] at hw hu
      rw [ih hw.2 hu.2 hrest]

/-- A name and the slash behind it are copied, and the other slashes are skipped. -/
theorem normalize_name (hw : '/' ∉ w) (hself : w ≠ ['.']) (hup : w ≠ ['.', '.']) :
    normalize (w ++ '/' :: t) dst = normalize (skipSlashes t) ('/' :: (w.reverse ++ dst)) := by
  have hall : ∀ x ∈ w, decide (x ≠ '/') = true := by
    intro x hx
    have : x ≠ '/' := fun heq => hw (heq ▸ hx)
    simpa using this
  have htake : (w ++ '/' :: t).takeWhile (fun x => decide (x ≠ '/')) = w := by
    rw [List.takeWhile_append_of_pos hall]
    simp
  have hdrop : (w ++ '/' :: t).dropWhile (fun x => decide (x ≠ '/')) = '/' :: t := by
    rw [List.dropWhile_append_of_pos hall]
    simp
  have hslash : ∀ u, w ++ '/' :: t = u → '/' ∈ u := by
    rintro _ rfl
    simp
  generalize hx : w ++ '/' :: t = x at *
  rw [normalize.eq_def x]
  split
  · simpa using hslash _ rfl
  · exact absurd (name_unique hw (u := ['.']) (by simp) hx) hself
  · simpa using hslash _ rfl
  · exact absurd (name_unique hw (u := ['.', '.']) (by simp) hx) hup
  · split
    · next h =>
      rw [hdrop] at h
      cases h
    · next h =>
      rw [hdrop] at h
      obtain ⟨rfl, rfl⟩ := List.cons.inj h
      rw [htake]

/-- `up_one` leaves the innermost name of a place. -/
theorem up_one_text {place : List (List Char)} (hplace : ∀ c ∈ place, '/' ∉ c) :
    up_one (Path.text '/' place).reverse = place.tail?.map fun p => (Path.text '/' p).reverse := by
  cases place with
  | nil => rfl
  | cons c cs =>
    have hc : ∀ x ∈ c.reverse, decide (x ≠ '/') = true := by
      intro x hx
      have : x ≠ '/' := fun heq => hplace c (by simp) (heq ▸ List.mem_reverse.mp hx)
      simpa using this
    have hstop : (Path.text '/' cs).reverse.dropWhile (fun x => decide (x ≠ '/')) =
        (Path.text '/' cs).reverse := by
      cases cs with
      | nil => rfl
      | cons d ds => simp [Path.text]
    have htext : (Path.text '/' (c :: cs)).reverse =
        '/' :: (c.reverse ++ (Path.text '/' cs).reverse) := by
      simp [Path.text]
    rw [htext, up_one, List.dropWhile_append_of_pos hc, hstop]
    rfl

/-- What is written for a place and a last name without a slash behind it. -/
theorem finish_name {place : List (List Char)} (hw : '/' ∉ w) (hne : w ≠ []) :
    finish (w.reverse ++ (Path.text '/' place).reverse) = Path.render '/' (w :: place) := by
  have hlast : (w.reverse ++ (Path.text '/' place).reverse).head? ≠ some '/' := by
    obtain ⟨c, u, hu⟩ := List.exists_cons_of_ne_nil (List.reverse_ne_nil_iff.mpr hne)
    rw [hu]
    rintro heq
    obtain rfl : c = '/' := by simpa using heq
    exact hw (List.mem_reverse.mp (hu ▸ List.mem_cons_self))
  have hrender : Path.text '/' place ++ w ≠ [] := by simp [hne]
  have hdst : w.reverse ++ (Path.text '/' place).reverse = (Path.text '/' place ++ w).reverse := by simp
  simp only [finish, Path.render, if_neg (fun hc => hlast (And.right hc)), if_neg hrender]
  rw [hdst, if_neg (List.reverse_ne_nil_iff.mpr hrender), List.reverse_reverse]

/-- What is written for a place. -/
theorem finish_place (place : List (List Char)) :
    finish (Path.text '/' place).reverse = Path.render '/' place := by
  cases place with
  | nil => rfl
  | cons c cs =>
    have hdst : (Path.text '/' (c :: cs)).reverse = '/' :: (Path.text '/' cs ++ c).reverse := by
      simp [Path.text]
    rw [finish, Path.render, hdst]
    generalize Path.text '/' cs ++ c = names
    cases names with
    | nil => simp
    | cons x xs => simp

/-- A string that does not begin with a slash begins with a name. -/
theorem first_name (hsrc : src.head? ≠ some '/') (hne : src ≠ []) :
    ∃ w, '/' ∉ w ∧ w ≠ [] ∧ (src = w ∨ ∃ t, src = w ++ '/' :: t) := by
  have hsplit := List.takeWhile_append_dropWhile (p := fun x => decide (x ≠ '/')) (l := src)
  refine ⟨src.takeWhile fun x => decide (x ≠ '/'), fun hmem => ?_, fun hnil => ?_, ?_⟩
  · simpa using List.mem_takeWhile_imp hmem
  · obtain ⟨c, cs, rfl⟩ := List.exists_cons_of_ne_nil hne
    have hc : c ≠ '/' := by simpa using hsrc
    simp [hc] at hnil
  · cases hrest : src.dropWhile fun x => decide (x ≠ '/') with
    | nil =>
      rw [hrest, List.append_nil] at hsplit
      exact Or.inl hsplit.symm
    | cons c t =>
      have hc := List.head?_dropWhile_not (fun x => decide (x ≠ '/')) src
      rw [hrest] at hc hsplit
      obtain rfl : c = '/' := by simpa using hc
      exact Or.inr ⟨t, hsplit.symm⟩

/-- What is written of a text, and whether that is nothing. -/
def written (dst : List Char) : List Char × Bool := (finish dst, dst.isEmpty)

/-- The text of a place, and whether it is above the root. -/
def rendered (place : List (List Char)) : List Char × Bool := (Path.render '/' place, place.isEmpty)

theorem written_name {place : List (List Char)} (hw : '/' ∉ w) (hne : w ≠ []) :
    written (w.reverse ++ (Path.text '/' place).reverse) = rendered (w :: place) := by
  simp [written, rendered, finish_name hw hne, hne]

theorem written_place (place : List (List Char)) :
    written (Path.text '/' place).reverse = rendered place := by
  rw [written, rendered, finish_place]
  cases place with
  | nil => rfl
  | cons c cs => simp [Path.text]

/-- What the loop writes is the place where the words of the string lead. -/
theorem normalize_place {place : List (List Char)} (hsrc : src.head? ≠ some '/')
    (hplace : ∀ c ∈ place, '/' ∉ c) :
    (normalize src (Path.text '/' place).reverse).map written =
      ((Path.words '/' src).foldlM (Path.enter ['.'] ['.', '.']) place).map rendered := by
  induction hn : src.length using Nat.strong_induction_on generalizing src place with
  | _ n ih =>
    by_cases hnil : src = []
    · subst hnil
      rw [normalize_name_end (by simp) (by simp) (by simp)]
      simpa using written_place place
    obtain ⟨w, hw, hne, rfl | ⟨t, rfl⟩⟩ := first_name hsrc hnil
    · -- the last name
      rw [Path.words_single hw hne, List.foldlM_cons]
      by_cases hself : src = ['.']
      · subst hself
        simpa [normalize_self_end, Path.enter] using written_place place
      by_cases hup : src = ['.', '.']
      · subst hup
        rw [normalize_up_end, up_one_text hplace]
        simp [Path.enter, Option.map_map, Function.comp_def, written_place]
      · rw [normalize_name_end hw hself hup]
        simpa [Path.enter, hself, hup] using written_name hw hne
    · -- a name, and a slash behind it
      have hlen := skipSlashes_length t
      have hle : (skipSlashes t).length < n := by
        rw [← hn, List.length_append, List.length_cons]
        omega
      have hstep := fun (p : List (List Char)) hp =>
        @ih _ hle (skipSlashes t) p (skipSlashes_head t) hp rfl
      simp only [words_skipSlashes] at hstep
      rw [Path.words_append hw hne, List.foldlM_cons]
      by_cases hself : w = ['.']
      · subst hself
        rw [List.singleton_append, normalize_self, hstep place hplace]
        simp [Path.enter]
      by_cases hup : w = ['.', '.']
      · subst hup
        rw [List.cons_append, List.singleton_append, normalize_up, up_one_text hplace]
        cases hp : place.tail? with
        | none => simp [Path.enter, hp]
        | some up =>
          have hrest : ∀ c ∈ up, '/' ∉ c := by
            intro c hc
            obtain ⟨x, rfl⟩ : ∃ x, place = x :: up := by
              cases place with
              | nil => cases hp
              | cons x xs => exact ⟨x, by rw [Option.some.inj hp]⟩
            exact hplace c (List.mem_cons_of_mem x hc)
          simpa [Path.enter, hp] using hstep up hrest
      · have hname : '/' :: (w.reverse ++ (Path.text '/' place).reverse) =
            (Path.text '/' (w :: place)).reverse := by simp [Path.text]
        rw [normalize_name hw hself hup, hname, hstep _ (List.forall_mem_cons.mpr ⟨hw, hplace⟩)]
        simp [Path.enter, hself, hup]

/-- What the loop writes of a string that begins with a slash. -/
theorem normalize_root (t : List Char) : (normalize ('/' :: t) []).map written =
    (Path.resolve ['.'] ['.', '.'] (Path.words '/' ('/' :: t))).map rendered := by
  have hroot : normalize ('/' :: t) [] = normalize (skipSlashes t) (Path.text '/' [[]]).reverse :=
    normalize_name (w := []) (by simp) (by simp) (by simp)
  have hplace := @normalize_place _ [[]] (skipSlashes_head t) (by simp)
  rw [hroot, hplace, words_skipSlashes, Path.words_sep, Path.resolve]

/-- The full path of an absolute name is the text of the place it leads to. -/
theorem dfs_normalize_path_absolute {directory : List Char} {dir : Option (List Char)}
    {filename : List Char} (habs : filename.head? = some '/') :
    dfs_normalize_path true directory dir filename =
      (Path.resolve ['.'] ['.', '.'] (Path.words '/' filename)).map (Path.render '/') := by
  obtain ⟨t, rfl⟩ : ∃ t, filename = '/' :: t := by
    cases filename with
    | nil => cases habs
    | cons c t => exact ⟨t, by rw [Option.some.inj habs]⟩
  rw [dfs_normalize_path, if_pos rfl]
  simp only [habs, ne_eq, not_true_eq_false, if_false]
  have hfst := congrArg (Option.map Prod.fst) (normalize_root t)
  rw [Option.map_map, Option.map_map] at hfst
  exact hfst

end Normalize

end Ab32Vg1.Dfs
