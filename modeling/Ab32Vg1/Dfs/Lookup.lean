import Ab32Vg1.Dfs.Mount
import Ab32Vg1.Dfs.PathBuffer
import Mathlib.Data.List.Induction

/-! `dfs_filesystem_lookup` of `dfs_fs.c` and `dfs_subdir` of `dfs.c`. -/

namespace Ab32Vg1.Dfs

open ProofKit

/-- `strncmp(s, t, n) == 0` -/
def strncmpEq (s t : List Char) (n : Nat) : Bool := s.take n = t.take n

/-- What the scan keeps: `fs` and `prefixlen`. -/
structure Scan where
  fs : Option Nat
  prefixlen : Nat

def Scan.entry (path : List Char) (s : Scan) (iter : Filesystem × Nat) : Scan :=
  match iter.1.path, iter.1.ops with
  | some mount, some _ =>
    let fspath := mount.length
    if fspath < s.prefixlen ∨ strncmpEq mount path fspath = false then s
    else if fspath > 1 ∧ path.length > fspath ∧ path[fspath]? ≠ some '/' then s
    else ⟨some iter.2, fspath⟩
  | _, _ => s

/-- The entry is given by its index in `filesystem_table`. -/
def dfs_filesystem_lookup (table : List Filesystem) (path : List Char) : Option Nat :=
  (table.zipIdx.foldl (Scan.entry path) ⟨none, 0⟩).fs

/-- `none` is a read behind the terminator of `filename`, and `some none` is `NULL`. -/
def dfs_subdir (directory filename : List Char) : Option (Option (List Char)) :=
  if directory.length = filename.length then some none
  else do
    let dir := directory.length
    let c ← (filename ++ [NUL])[dir]?
    some (some (filename.drop (if c ≠ '/' ∧ dir ≠ 0 then dir - 1 else dir)))

/-- The entry at `j` is mounted on `mount`, whose names begin the names of `path`. -/
structure Covers (table : List Filesystem) (path : List Char) (j : Nat) (mount : List Char) : Prop where
  entry : ∃ iter, table[j]? = some iter ∧ iter.path = some mount ∧ iter.ops.isSome
  names : Path.words '/' mount <+: Path.words '/' path

section Texts

variable {path mount : List Char} {ms ps rest : List (List Char)}

abbrev Proper (names : List (List Char)) : Prop := ∀ c ∈ names, Path.Proper '/' ['.'] ['.', '.'] c

/-- The text in front of the names that follow. -/
def stem (names : List (List Char)) : List Char := names.flatMap ('/' :: ·)

theorem absolute_append (hrest : rest ≠ []) :
    Path.absolute '/' (ms ++ rest) = stem ms ++ Path.absolute '/' rest := by
  rw [Path.absolute, if_neg (by simp [hrest]), Path.absolute, if_neg hrest, List.flatMap_append, stem]

theorem absolute_stem (hms : ms ≠ []) : Path.absolute '/' ms = stem ms := if_neg hms

theorem stem_length (hms : Proper ms) (hne : ms ≠ []) : 1 < (stem ms).length := by
  obtain ⟨c, cs, rfl⟩ := List.exists_cons_of_ne_nil hne
  have hc := List.length_pos_of_ne_nil (hms c List.mem_cons_self).ne_nil
  simp only [stem, List.flatMap_cons, List.length_append, List.length_cons]
  omega

/-- A place below another has a longer text. -/
theorem absolute_length (hps : Proper (ms ++ rest)) (hrest : rest ≠ []) :
    (Path.absolute '/' ms).length < (Path.absolute '/' (ms ++ rest)).length := by
  have hlen := stem_length (fun c hc => hps c (List.mem_append_right ms hc)) hrest
  rw [absolute_append hrest, absolute_stem hrest, List.length_append]
  by_cases hms : ms = []
  · subst hms
    simpa [Path.absolute, stem] using hlen
  · rw [absolute_stem hms]
    omega

/-- The test of the scan: the text begins the path, and ends there at a name. -/
def Tested (mount path : List Char) : Prop :=
  strncmpEq mount path mount.length ∧
    ¬(mount.length > 1 ∧ path.length > mount.length ∧ path[mount.length]? ≠ some '/')

instance (mount path : List Char) : Decidable (Tested mount path) := inferInstanceAs (Decidable (_ ∧ _))

/-- The test holds for the names that begin the names of the path. -/
theorem tested_iff (hms : Proper ms) (hps : Proper ps) :
    Tested (Path.absolute '/' ms) (Path.absolute '/' ps) ↔ ms <+: ps := by
  constructor
  · rintro ⟨htake, hnext⟩
    by_cases hnil : ms = []
    · subst hnil
      exact List.nil_prefix
    have hlen := stem_length hms hnil
    have hwords := Path.words_absolute hms
    have hpath := Path.words_absolute hps
    rw [absolute_stem hnil] at htake hnext hwords
    obtain ⟨tail, htail⟩ : stem ms <+: Path.absolute '/' ps := by
      rw [List.prefix_iff_eq_take]
      simpa [strncmpEq] using htake
    rw [← htail] at hnext hpath
    cases tail with
    | nil =>
      rw [List.append_nil, hwords] at hpath
      exact hpath ▸ List.prefix_refl ms
    | cons c tail =>
      have hslash : c = '/' := by
        by_contra hc
        exact hnext ⟨hlen, by simp, by simpa using hc⟩
      rw [hslash, Path.words_append_sep, hwords] at hpath
      exact hpath ▸ List.prefix_append ms _
  · rintro ⟨rest, rfl⟩
    by_cases hrest : rest = []
    · subst hrest
      rw [List.append_nil]
      exact ⟨by simp [strncmpEq], fun h => absurd h.2.1 (Nat.lt_irrefl _)⟩
    · obtain ⟨t, ht⟩ := Path.absolute_eq_cons '/' rest
      rw [absolute_append hrest, ht]
      by_cases hms : ms = []
      · subst hms
        exact ⟨by simp [strncmpEq, Path.absolute, stem], fun h => absurd h.1 (by simp [Path.absolute])⟩
      · rw [absolute_stem hms]
        exact ⟨by simp [strncmpEq], fun h => absurd h.2.2 (by simp)⟩

end Texts

section Scanning

variable {table : List Filesystem} {path mount : List Char} {iter : Filesystem} {s : Scan} {i j : Nat}

theorem tested_covers (hmount : Path.Normal '/' ['.'] ['.', '.'] mount)
    (hpath : Path.Normal '/' ['.'] ['.', '.'] path) :
    Tested mount path ↔ Path.words '/' mount <+: Path.words '/' path := by
  obtain ⟨ms, hms, rfl⟩ := hmount
  obtain ⟨ps, hps, rfl⟩ := hpath
  rw [← Path.absolute, ← Path.absolute, Path.words_absolute hms, Path.words_absolute hps]
  exact tested_iff hms hps

/-- An entry that is not mounted is passed. -/
theorem Scan.entry_unmounted (h : ∀ mount, iter.path = some mount → iter.ops = none) :
    s.entry path (iter, i) = s := by
  rw [Scan.entry]
  cases hpath : iter.path with
  | none => rfl
  | some mount => rw [h mount hpath]

theorem Scan.entry_mounted (hmount : iter.path = some mount) (hops : iter.ops.isSome) :
    s.entry path (iter, i) =
      if mount.length < s.prefixlen ∨ ¬Tested mount path then s else ⟨some i, mount.length⟩ := by
  obtain ⟨ops, hops⟩ := Option.isSome_iff_exists.mp hops
  rw [Scan.entry, hmount, hops]
  simp only
  by_cases hlt : mount.length < s.prefixlen
  · rw [if_pos (Or.inl hlt), if_pos (Or.inl hlt)]
  by_cases hcmp : strncmpEq mount path mount.length = false
  · have hnot : ¬Tested mount path := fun h => Bool.eq_false_iff.mp hcmp h.1
    rw [if_pos (Or.inr hcmp), if_pos (Or.inr hnot)]
  by_cases hnext : mount.length > 1 ∧ path.length > mount.length ∧ path[mount.length]? ≠ some '/'
  · rw [if_neg (by simp [hlt, hcmp]), if_pos hnext, if_pos (Or.inr fun h => h.2 hnext)]
  · have htest : strncmpEq mount path mount.length = true := by simpa using hcmp
    rw [if_neg (by simp [hlt, hcmp]), if_neg hnext, if_neg]
    rintro (h | h)
    · exact hlt h
    · exact h ⟨htest, hnext⟩

/-- The entry that is found is mounted and passes the test. -/
theorem lookup_tested {fs : Nat} (h : dfs_filesystem_lookup table path = some fs) :
    ∃ iter mount, table[fs]? = some iter ∧ iter.path = some mount ∧ iter.ops.isSome ∧
      Tested mount path := by
  rw [dfs_filesystem_lookup] at h
  induction table using List.reverseRec with
  | nil => cases h
  | append_singleton table iter ih =>
    have hkeep : (table.zipIdx.foldl (Scan.entry path) ⟨none, 0⟩).fs = some fs →
        ∃ e mount, (table ++ [iter])[fs]? = some e ∧ e.path = some mount ∧ e.ops.isSome ∧
          Tested mount path := by
      intro hold
      obtain ⟨e, mount, he, htest⟩ := ih hold
      exact ⟨e, mount, by rw [List.getElem?_append_left (List.getElem?_eq_some_iff.mp he).1, he], htest⟩
    rw [List.zipIdx_append, List.foldl_append, Nat.zero_add] at h
    have h : (Scan.entry path (table.zipIdx.foldl (Scan.entry path) ⟨none, 0⟩)
        (iter, table.length)).fs = some fs := h
    by_cases hmounted : ∃ mount, iter.path = some mount ∧ iter.ops.isSome
    · obtain ⟨mount, hmount, hops⟩ := hmounted
      rw [Scan.entry_mounted hmount hops] at h
      split at h
      · exact hkeep h
      · next htake =>
        obtain rfl := Option.some.inj h
        rw [not_or, not_not] at htake
        exact ⟨iter, mount, by simp, hmount, hops, htake.2⟩
    · have hunmounted : ∀ mount, iter.path = some mount → iter.ops = none := by
        intro mount hmount
        by_contra hops
        exact hmounted ⟨mount, hmount, Option.isSome_iff_ne_none.mpr hops⟩
      rw [Scan.entry_unmounted hunmounted] at h
      exact hkeep h

/-- The entries that cover a path after one more entry. -/
theorem covers_concat : Covers (table ++ [iter]) path j mount ↔ Covers table path j mount ∨
    j = table.length ∧ iter.path = some mount ∧ iter.ops.isSome ∧
      Path.words '/' mount <+: Path.words '/' path := by
  constructor
  · rintro ⟨⟨e, he, hmount, hops⟩, hnames⟩
    rcases Nat.lt_or_ge j table.length with hlt | hge
    · rw [List.getElem?_append_left hlt] at he
      exact Or.inl ⟨⟨e, he, hmount, hops⟩, hnames⟩
    · rw [List.getElem?_append_right hge] at he
      obtain ⟨hj, rfl⟩ := List.getElem?_eq_some_iff.mp he
      rw [List.length_singleton] at hj
      simp only [show j - table.length = 0 by omega, List.getElem_cons_zero] at hmount hops
      exact Or.inr ⟨by omega, hmount, hops, hnames⟩
  · rintro (⟨⟨e, he, hmount, hops⟩, hnames⟩ | ⟨rfl, hmount, hops, hnames⟩)
    · have hlt := (List.getElem?_eq_some_iff.mp he).1
      exact ⟨⟨e, by rw [List.getElem?_append_left hlt, he], hmount, hops⟩, hnames⟩
    · exact ⟨⟨iter, by simp, hmount, hops⟩, hnames⟩

/-- What the scan holds after a table. -/
inductive Best (table : List Filesystem) (path : List Char) : Scan → Prop
  | empty (h : ∀ j mount, ¬Covers table path j mount) : Best table path ⟨none, 0⟩
  | found {fs : Nat} {mount : List Char} (h : Covers table path fs mount)
      (hlongest : ∀ j mount', Covers table path j mount' → mount'.length ≤ mount.length) :
      Best table path ⟨some fs, mount.length⟩

theorem Best.le (h : Best table path s) (hj : Covers table path j mount) :
    mount.length ≤ s.prefixlen := by
  cases h with
  | empty hnone => exact absurd hj (hnone j mount)
  | found hfs hlongest => exact hlongest j mount hj

/-- An entry that does not cover the path changes nothing. -/
theorem Best.pass (h : Best table path s) (hiter : ∀ mount, iter.path = some mount → iter.ops.isSome →
    Path.words '/' mount <+: Path.words '/' path → mount.length < s.prefixlen) :
    Best (table ++ [iter]) path s := by
  cases h with
  | empty hnone =>
    refine .empty fun j mount hj => ?_
    rcases covers_concat.mp hj with hj | ⟨-, hmount, hops, hnames⟩
    · exact hnone j mount hj
    · exact absurd (hiter mount hmount hops hnames) (Nat.not_lt_zero _)
  | found hfs hlongest =>
    refine .found (covers_concat.mpr (Or.inl hfs)) fun j mount' hj => ?_
    rcases covers_concat.mp hj with hj | ⟨-, hmount, hops, hnames⟩
    · exact hlongest j mount' hj
    · exact (hiter mount' hmount hops hnames).le

/-- One more entry. -/
theorem Best.entry (h : Best table path s) (hpath : Path.Normal '/' ['.'] ['.', '.'] path)
    (hiter : ∀ mount, iter.path = some mount → Path.Normal '/' ['.'] ['.', '.'] mount) :
    Best (table ++ [iter]) path (s.entry path (iter, table.length)) := by
  by_cases hmounted : ∃ mount, iter.path = some mount ∧ iter.ops.isSome
  · obtain ⟨mount, hmount, hops⟩ := hmounted
    have htest := tested_covers (hiter mount hmount) hpath
    rw [Scan.entry_mounted hmount hops]
    split
    · next hskip =>
      refine h.pass fun mount' hmount' _ hnames => ?_
      obtain rfl := Option.some.inj (hmount.symm.trans hmount')
      rcases hskip with hlt | hnot
      · exact hlt
      · exact absurd (htest.mpr hnames) hnot
    · next htake =>
      rw [not_or, not_not] at htake
      refine .found (covers_concat.mpr (Or.inr ⟨rfl, hmount, hops, htest.mp htake.2⟩)) ?_
      intro j mount' hj
      rcases covers_concat.mp hj with hj | ⟨-, hmount', -, -⟩
      · exact (h.le hj).trans (Nat.le_of_not_lt htake.1)
      · exact (congrArg List.length (Option.some.inj (hmount.symm.trans hmount'))).ge
  · have hunmounted : ∀ mount, iter.path = some mount → iter.ops = none := by
      intro mount hmount
      by_contra hops
      exact hmounted ⟨mount, hmount, Option.isSome_iff_ne_none.mpr hops⟩
    rw [Scan.entry_unmounted hunmounted]
    refine h.pass fun mount hmount hops _ => ?_
    exact absurd ⟨mount, hmount, hops⟩ hmounted

/-- The whole table. -/
theorem Best.all (hpath : Path.Normal '/' ['.'] ['.', '.'] path)
    (hnormal : ∀ p ∈ mountedPaths table, Path.Normal '/' ['.'] ['.', '.'] p) :
    Best table path (table.zipIdx.foldl (Scan.entry path) ⟨none, 0⟩) := by
  induction table using List.reverseRec with
  | nil => exact .empty fun j mount ⟨⟨e, he, _⟩, _⟩ => by simp at he
  | append_singleton table iter ih =>
    rw [mountedPaths, List.filterMap_append] at hnormal
    rw [List.zipIdx_append, List.foldl_append, Nat.zero_add]
    refine (ih fun p hp => hnormal p (List.mem_append_left _ hp)).entry hpath fun mount hmount => ?_
    exact hnormal mount (List.mem_append_right _ (by simp [hmount]))

theorem Covers.mounted (h : Covers table path j mount) : mount ∈ mountedPaths table := by
  obtain ⟨⟨e, he, hm, -⟩, -⟩ := h
  exact List.mem_filterMap.mpr ⟨e, List.mem_of_getElem? he, hm⟩

/-- No two entries are mounted on the same path. -/
theorem Covers.unique (hdistinct : (mountedPaths table).Nodup) (hi : Covers table path i mount)
    (hj : Covers table path j mount) : i = j := by
  have hpair := List.pairwise_iff_getElem.mp (List.pairwise_filterMap.mp hdistinct)
  obtain ⟨⟨a, ha, hpa, -⟩, -⟩ := hi
  obtain ⟨⟨b, hb, hpb, -⟩, -⟩ := hj
  obtain ⟨hi, rfl⟩ := List.getElem?_eq_some_iff.mp ha
  obtain ⟨hj, rfl⟩ := List.getElem?_eq_some_iff.mp hb
  rcases Nat.lt_trichotomy i j with hlt | heq | hgt
  · exact absurd rfl (hpair i j hi hj hlt mount hpa mount hpb)
  · exact heq
  · exact absurd rfl (hpair j i hj hi hgt mount hpb mount hpa)

/-- Of two mounts that cover a path, the one with the shorter text has fewer names. -/
theorem names_lt {mount' : List Char} (hm : Path.Normal '/' ['.'] ['.', '.'] mount)
    (hm' : Path.Normal '/' ['.'] ['.', '.'] mount') (hne : mount' ≠ mount)
    (hle : mount'.length ≤ mount.length) (hnames : Path.words '/' mount <+: Path.words '/' path)
    (hnames' : Path.words '/' mount' <+: Path.words '/' path) :
    (Path.words '/' mount').length < (Path.words '/' mount).length := by
  obtain ⟨ms, hms, rfl⟩ := hm
  obtain ⟨ms', hms', rfl⟩ := hm'
  have hwords := Path.words_absolute hms
  have hwords' := Path.words_absolute hms'
  rw [Path.absolute] at hwords hwords'
  rw [hwords] at hnames
  rw [hwords'] at hnames'
  rw [hwords, hwords']
  by_contra hge
  obtain ⟨rest, rfl⟩ := List.prefix_of_prefix_length_le hnames hnames' (Nat.le_of_not_lt hge)
  by_cases hrest : rest = []
  · exact hne (by rw [hrest, List.append_nil])
  · have hlt := absolute_length hms' hrest
    rw [Path.absolute, Path.absolute] at hlt
    omega

end Scanning

/-- The mount at `fs` covers the path, and every other one that does has fewer names. -/
structure Longest (table : List Filesystem) (path : List Char) (fs : Nat) (mount : List Char) :
    Prop where
  covers : Covers table path fs mount
  longest : ∀ j mount', Covers table path j mount' → j ≠ fs →
    (Path.words '/' mount').length < (Path.words '/' mount).length

/-- `dfs_subdir` of a mount gives what is left of a path below it, or `NULL` for the mount itself. -/
structure Below (mount path : List Char) : Prop where
  same : dfs_subdir mount path = some none ↔ mount = path
  rest : mount ≠ path → ∃ rest, Path.words '/' path = Path.words '/' mount ++ rest ∧
    dfs_subdir mount path = some (some (Path.absolute '/' rest)) ∧ Path.absolute '/' rest <:+ path

section Lookup

variable {table : List Filesystem} {path mount : List Char} {fs : Nat}

theorem best_found (hdistinct : (mountedPaths table).Nodup)
    (hnormal : ∀ p ∈ mountedPaths table, Path.Normal '/' ['.'] ['.', '.'] p)
    (hcovers : Covers table path fs mount)
    (hlongest : ∀ j mount', Covers table path j mount' → mount'.length ≤ mount.length) :
    Longest table path fs mount := by
  refine ⟨hcovers, fun j mount' hj hne => ?_⟩
  refine names_lt (hnormal _ hcovers.mounted) (hnormal _ hj.mounted) ?_ (hlongest j mount' hj)
    hcovers.names hj.names
  rintro rfl
  exact hne (hj.unique hdistinct hcovers)

/-- `dfs_subdir` on a mount and a path below it. -/
theorem dfs_subdir_below {ms rest : List (List Char)} (hps : Proper (ms ++ rest)) :
    dfs_subdir (Path.absolute '/' ms) (Path.absolute '/' (ms ++ rest)) =
      if rest = [] then some none else some (some (Path.absolute '/' rest)) := by
  by_cases hrest : rest = []
  · subst hrest
    rw [List.append_nil, dfs_subdir, if_pos rfl, if_pos rfl]
  · have hlt := absolute_length hps hrest
    rw [if_neg hrest, dfs_subdir, if_neg (Nat.ne_of_lt hlt), absolute_append hrest]
    by_cases hms : ms = []
    · -- the root ends behind its own slash, which is part of the rest
      subst hms
      obtain ⟨c, cs, rfl⟩ := List.exists_cons_of_ne_nil hrest
      obtain ⟨x, w, rfl⟩ := List.exists_cons_of_ne_nil (hps c (by simp)).ne_nil
      have hx : x ≠ '/' := fun heq => (hps (x :: w) (by simp)).no_sep (by simp [heq])
      simp [Path.absolute, stem, hx]
    · obtain ⟨t, ht⟩ := Path.absolute_eq_cons '/' rest
      simp [absolute_stem hms, ht]

theorem below (hmount : Path.Normal '/' ['.'] ['.', '.'] mount)
    (hpath : Path.Normal '/' ['.'] ['.', '.'] path)
    (hnames : Path.words '/' mount <+: Path.words '/' path) : Below mount path := by
  obtain ⟨ms, hms, rfl⟩ := hmount
  obtain ⟨ps, hps, rfl⟩ := hpath
  rw [← Path.absolute, ← Path.absolute] at hnames ⊢
  rw [Path.words_absolute hms, Path.words_absolute hps] at hnames
  obtain ⟨rest, rfl⟩ := hnames
  have hsubdir := dfs_subdir_below hps
  have hsame : Path.absolute '/' ms = Path.absolute '/' (ms ++ rest) ↔ rest = [] := by
    constructor
    · intro heq
      by_contra hrest
      exact absurd (congrArg List.length heq) (Nat.ne_of_lt (absolute_length hps hrest))
    · rintro rfl
      rw [List.append_nil]
  refine ⟨?_, fun hne => ⟨rest, ?_, ?_, ?_⟩⟩
  · rw [hsubdir, hsame]
    split
    · next hrest => simp [hrest]
    · next hrest => simp [hrest]
  · rw [Path.words_absolute hms, Path.words_absolute hps]
  · rw [hsubdir, if_neg fun hrest => hne (hsame.mpr hrest)]
  · rw [absolute_append fun hrest => hne (hsame.mpr hrest)]
    exact List.suffix_append _ _

/-- The lookup finds the longest mount that covers a path, and `dfs_subdir` what is below it. -/
theorem dfs_filesystem_lookup_longest
    (hnormal : ∀ p ∈ mountedPaths table, Path.Normal '/' ['.'] ['.', '.'] p)
    (hdistinct : (mountedPaths table).Nodup) (hpath : Path.Normal '/' ['.'] ['.', '.'] path) :
    (∀ fs, dfs_filesystem_lookup table path = some fs ↔ ∃ mount, Longest table path fs mount) ∧
      (dfs_filesystem_lookup table path = none ↔ ∀ j mount, ¬Covers table path j mount) ∧
      ∀ fs mount, Covers table path fs mount → Below mount path := by
  have hbelow : ∀ fs mount, Covers table path fs mount → Below mount path := by
    intro fs mount h
    exact below (hnormal mount h.mounted) hpath h.names
  have hbest := Best.all hpath hnormal
  rw [dfs_filesystem_lookup]
  generalize table.zipIdx.foldl (Scan.entry path) ⟨none, 0⟩ = s at hbest
  cases hbest with
  | empty hnone =>
    refine ⟨fun fs => ⟨fun h => ?_, fun ⟨mount, h⟩ => ?_⟩, ⟨fun _ => hnone, fun _ => rfl⟩, hbelow⟩
    · cases h
    · exact absurd h.covers (hnone fs mount)
  | found hfs hlongest =>
    rename_i found mount
    refine ⟨fun fs => ⟨fun h => ?_, fun ⟨mount', h⟩ => ?_⟩, ⟨fun h => ?_, fun h => ?_⟩, hbelow⟩
    · obtain rfl := Option.some.inj h
      exact ⟨mount, best_found hdistinct hnormal hfs hlongest⟩
    · by_contra hne
      have hother : found ≠ fs := fun heq => hne (congrArg some heq)
      have hlt := h.longest found mount hfs hother
      have hgt := (best_found hdistinct hnormal hfs hlongest).longest fs mount' h.covers
        fun heq => hother heq.symm
      omega
    · cases h
    · exact absurd hfs (h found mount)

/-- `/mnt` and the root are mounted. -/
def mntTable : List Filesystem :=
  [⟨none, some ['/', 'm', 'n', 't'], some ⟨['e', 'l', 'm'], true, true⟩⟩,
    ⟨none, some ['/'], some ⟨['e', 'l', 'm'], true, true⟩⟩]

/-- `/mntx` is on the root. -/
theorem dfs_filesystem_lookup_mntx :
    ∃ mount, Longest mntTable ['/', 'm', 'n', 't', 'x'] 1 mount := by
  have hroot : Path.Normal '/' ['.'] ['.', '.'] ['/'] := ⟨[], by simp, rfl⟩
  have hmnt : Path.Normal '/' ['.'] ['.', '.'] ['/', 'm', 'n', 't'] :=
    ⟨[['m', 'n', 't']], by simpa using ⟨by decide, by decide, by decide, by decide⟩, rfl⟩
  have hpath : Path.Normal '/' ['.'] ['.', '.'] ['/', 'm', 'n', 't', 'x'] :=
    ⟨[['m', 'n', 't', 'x']], by simpa using ⟨by decide, by decide, by decide, by decide⟩, rfl⟩
  have hnormal : ∀ p ∈ mountedPaths mntTable, Path.Normal '/' ['.'] ['.', '.'] p := by
    intro p hp
    have hp : p = ['/', 'm', 'n', 't'] ∨ p = ['/'] := by simpa [mountedPaths, mntTable] using hp
    rcases hp with rfl | rfl
    · exact hmnt
    · exact hroot
  exact ((dfs_filesystem_lookup_longest hnormal (by decide) hpath).1 1).mp (by decide)

end Lookup

end Ab32Vg1.Dfs
