import Ab32Vg1.Dfs.FdTable
import Ab32Vg1.Dfs.Lookup
import Ab32Vg1.Dfs.PathNormal

/-! Open files: `dfs_file_open`, `dfs_file_close` and `dfs_file_unlink` of `dfs_file.c`, and `fd_is_open`
of `dfs.c`. -/

namespace Ab32Vg1.Dfs

open ProofKit

def ENOENT : Int := 2

def ENOMEM : Int := 12

def EBUSY : Int := 16

def DFS_FS_FLAG_FULLPATH : BitVec 32 := 0x01

/-- What the file functions read of `struct dfs_filesystem_ops`: the flags, and which operations are
there. -/
structure FileOps where
  flags : BitVec 32
  fopsOpen : Bool
  fopsClose : Bool
  unlink : Bool

/-- The mounted file systems. -/
structure Mounts where
  table : List Filesystem
  fileOps : FilesystemOps → FileOps

/-- The working directory starts at the root. -/
structure WorkingDirectory where
  path : List Char
  absolute : path.head? = some '/'

/-- What `dfs_file_open` finds outside: whether the full path and its copy can be allocated, and what the
file system's `open` answers. -/
structure OpenHost where
  working_directory : WorkingDirectory
  memory : Bool
  strdup : Bool
  result : Int

/-- What `dfs_file_unlink` finds outside: whether the full path, and the one of `fd_is_open`, can be
allocated, and what the file system's `unlink` answers. -/
structure UnlinkHost where
  working_directory : WorkingDirectory
  memory : Bool
  openMemory : Bool
  result : Int

/-- The path below a mount, as the operations get it. -/
def pathBelow (mount fullpath : List Char) : Option (List Char) := do
  match ← dfs_subdir mount fullpath with
  | none => some ['/']
  | some dir => some dir

/-- The path that is stored for a file, `NULL` without memory for its copy. -/
def storedPath (ops : FileOps) (mount fullpath : List Char) (strdup : Bool) :
    Option (Option (List Char)) :=
  if ops.flags &&& DFS_FS_FLAG_FULLPATH = 0 then do
    let path ← pathBelow mount fullpath
    some (if strdup then some path else none)
  else some (some fullpath)

/-- The loop of `fd_is_open` along the entries. -/
def anyOpen (fdt : DfsFdtable) (fs : Nat) (mountpath : List Char) : List (Option Nat) → Option Bool
  | [] => some false
  | none :: entries => anyOpen fdt fs mountpath entries
  | some d :: entries => do
    let fd ← fdt.heap d
    if fd.fops = false ∨ fd.path = none then anyOpen fdt fs mountpath entries
    else if fd.fs = some fs ∧ fd.path = some mountpath then some true
    else anyOpen fdt fs mountpath entries

/-- The path that `fd_is_open` looks for. -/
def mountPath (mount fullpath : List Char) : List Char :=
  if mount = ['/'] then fullpath else fullpath.drop mount.length

namespace Mounts

/-- The file system at an index: its path and its operations. -/
def mounted (m : Mounts) (fs : Nat) : Option (List Char × FileOps) := do
  let iter ← m.table[fs]?
  some (← iter.path, m.fileOps (← iter.ops))

def dfs_file_open (m : Mounts) (fdt : DfsFdtable) (host : OpenHost) (fd : Nat) (path : List Char) :
    Option (Int × DfsFdtable) :=
  match dfs_normalize_path host.memory host.working_directory.path none path with
  | none => some (-ENOMEM, fdt)
  | some fullpath =>
    match dfs_filesystem_lookup m.table fullpath with
    | none => some (-ENOENT, fdt)
    | some fs => do
      let (mount, ops) ← m.mounted fs
      let f ← fdt.heap fd
      let path ← storedPath ops mount fullpath host.strdup
      let f := { f with fs := some fs, fops := true, path := path }
      if ops.fopsOpen = false then some (-ENOSYS, fdt.store fd { f with path := none })
      else if host.result < 0 then some (host.result, fdt.store fd { f with path := none })
      else some (0, fdt.store fd f)

/-- `close` is what the file system's `close` answers. -/
def dfs_file_close (m : Mounts) (fdt : DfsFdtable) (close : Int) (fd : Nat) :
    Option (Int × DfsFdtable) := do
  let f ← fdt.heap fd
  let (_, ops) ← m.mounted (← f.fs)
  let result := if ops.fopsClose then close else 0
  if result < 0 then some (result, fdt)
  else some (result, fdt.store fd { f with path := none })

def fd_is_open (m : Mounts) (fdt : DfsFdtable) (working_directory : List Char) (memory : Bool)
    (pathname : List Char) : Option Int :=
  match dfs_normalize_path memory working_directory none pathname with
  | none => some (-1)
  | some fullpath =>
    match dfs_filesystem_lookup m.table fullpath with
    | none => some (-1)
    | some fs => do
      let (mount, _) ← m.mounted fs
      let found ← anyOpen fdt fs (mountPath mount fullpath) (fdt.fds.take fdt.maxfd)
      some (if found then 0 else -1)

/-- The call of the file system's `unlink`, which answers `result`. -/
def callUnlink (ops : FileOps) (mount fullpath : List Char) (result : Int) :
    Option (Int × Option (List Char)) :=
  if ops.unlink then
    if ops.flags &&& DFS_FS_FLAG_FULLPATH = 0 then do
      some (result, some (← pathBelow mount fullpath))
    else some (result, some fullpath)
  else some (-ENOSYS, none)

/-- The result, and the path that the file system's `unlink` is called with. -/
def dfs_file_unlink (m : Mounts) (fdt : DfsFdtable) (host : UnlinkHost) (path : List Char) :
    Option (Int × Option (List Char)) :=
  match dfs_normalize_path host.memory host.working_directory.path none path with
  | none => some (-EINVAL, none)
  | some fullpath =>
    match dfs_filesystem_lookup m.table fullpath with
    | none => some (-ENOENT, none)
    | some fs => do
      if (← m.fd_is_open fdt host.working_directory.path host.openMemory fullpath) = 0 then
        some (-EBUSY, none)
      else
        let (mount, ops) ← m.mounted fs
        callUnlink ops mount fullpath host.result

end Mounts

/-! ### Runs -/

/-- The descriptors, and for the structure of an open file its full path. -/
structure Opened where
  shared : Shared
  opened : Nat → Option (List Char)

inductive FileCall where
  | fd (op : FdOp)
  | file_open (host : OpenHost) (fd : Nat) (path : List Char)
  | file_close (close : Int) (fd : Nat)

/-- A call; a file is opened on a structure that is not open. -/
def Opened.next (m : Mounts) (s : Opened) : FileCall → Option Opened
  | .fd op => do
    let shared ← s.shared.next op
    some ⟨shared, fun d => if (shared.fdt.heap d).isSome then s.opened d else none⟩
  | .file_open host fd path =>
    if s.opened fd ≠ none then none
    else do
      let (result, fdt) ← m.dfs_file_open s.shared.fdt host fd path
      some ⟨⟨fdt, s.shared.refs⟩, if result = 0 then Function.update s.opened fd
        (dfs_normalize_path host.memory host.working_directory.path none path) else s.opened⟩
  | .file_close close fd => do
    let (result, fdt) ← m.dfs_file_close s.shared.fdt close fd
    some ⟨⟨fdt, s.shared.refs⟩, if result < 0 then s.opened else Function.update s.opened fd none⟩

/-- The files of the mounted file systems. -/
def openFiles (m : Mounts) : Machine Opened FileCall where
  start s := fdTable.start s.shared ∧ ∀ d, s.opened d = none
  step s call s' := s.next m call = some s'

/-- An open file has the file system and the path that its full path leads to, and no other structure
has a path. -/
structure Opened.Inv (m : Mounts) (s : Opened) : Prop where
  shared : s.shared.Inv
  file : ∀ d p, s.opened d = some p → Path.Normal '/' ['.'] ['.', '.'] p ∧
    ∃ fs mount ops fd strdup, dfs_filesystem_lookup m.table p = some fs ∧
      m.mounted fs = some (mount, ops) ∧ s.shared.fdt.heap d = some fd ∧ fd.fops = true ∧
      fd.fs = some fs ∧ storedPath ops mount p strdup = some fd.path
  closed : ∀ d fd, s.shared.fdt.heap d = some fd → s.opened d = none → fd.path = none

section Names

variable {memory : Bool} {working_directory filename p : List Char} {directory : Option (List Char)}

/-- What is normalized and starts at the root is normal. -/
theorem dfs_normalize_path_normal
    (habs : (joined (directory.getD working_directory) filename).head? = some '/')
    (h : dfs_normalize_path memory working_directory directory filename = some p)
    (hp : p.head? = some '/') : Path.Normal '/' ['.'] ['.', '.'] p := by
  obtain ⟨t, ht⟩ : ∃ t, joined (directory.getD working_directory) filename = '/' :: t := by
    cases hj : joined (directory.getD working_directory) filename with
    | nil => simp [hj] at habs
    | cons c t => exact ⟨t, by rw [hj] at habs; rw [Option.some.inj habs]⟩
  obtain ⟨dst, hdst, hfinish⟩ : ∃ dst, normalize ('/' :: t) [] = some dst ∧ finish dst = p := by
    obtain ⟨-, h⟩ := Option.ite_none_right_eq_some.mp h
    rw [← ht]
    exact Option.map_eq_some_iff.mp h
  have hroot := normalize_root t
  rw [hdst, Option.map_some] at hroot
  obtain ⟨place, hplace, hwritten⟩ := Option.map_eq_some_iff.mp hroot.symm
  have hrender : Path.render '/' place = p := (congrArg Prod.fst hwritten).trans hfinish
  subst hrender
  obtain ⟨names, hnames, rfl | rfl⟩ := Path.resolve_place hplace
  · exact Path.render_normal hnames
  · by_cases hnil : place = []
    · exact ⟨[], by simp, by rw [hnil]; rfl⟩
    · exact absurd hp (Path.render_head (fun c hc => ⟨(hnames c hc).ne_nil, (hnames c hc).no_sep⟩) hnil)

/-- A normal path is its own normalization. -/
theorem dfs_normalize_path_self (hp : Path.Normal '/' ['.'] ['.', '.'] p) :
    dfs_normalize_path true working_directory directory p = some p := by
  obtain ⟨names, hnames, rfl⟩ := hp
  rw [← Path.absolute]
  obtain ⟨t, ht⟩ := Path.absolute_eq_cons '/' names
  have hlevel := Path.lowest_names hnames []
  rw [List.append_nil, Path.lowest, Int.add_zero] at hlevel
  have hwalk : Path.resolve ['.'] ['.', '.'] names = some (names.reverse ++ [] ++ [[]]) := by
    rw [← Path.foldl_follow_names hnames]
    exact @Path.foldlM_enter_over _ _ _ _ names [] [[]] (by rw [hlevel, List.length_nil]; omega)
  rw [dfs_normalize_path_absolute (by rw [ht]; rfl), Path.words_absolute hnames, hwalk,
    List.append_nil, Option.map_some, Path.render_rooted, List.reverse_reverse]

end Names

section Paths

variable {m : Mounts} {p : List Char} {fs : Nat} {ms rest : List (List Char)}

theorem pathBelow_eq (hps : Proper (ms ++ rest)) :
    pathBelow (Path.absolute '/' ms) (Path.absolute '/' (ms ++ rest)) =
      some (Path.absolute '/' rest) := by
  rw [pathBelow, dfs_subdir_below hps]
  split
  · next hrest =>
    subst hrest
    rfl
  · rfl

/-- `fd_is_open` looks for the path below the mount, but for an empty path at the mount itself. -/
theorem mountPath_eq (hps : Proper (ms ++ rest)) :
    mountPath (Path.absolute '/' ms) (Path.absolute '/' (ms ++ rest)) =
      if ms = [] ∨ rest ≠ [] then Path.absolute '/' rest else [] := by
  by_cases hms : ms = []
  · subst hms
    rw [mountPath, if_pos (show Path.absolute '/' [] = ['/'] from rfl), if_pos (Or.inl rfl),
      List.nil_append]
  · have hlen := stem_length (fun c hc => hps c (List.mem_append_left rest hc)) hms
    have hroot : stem ms ≠ ['/'] := fun heq => by simp [heq] at hlen
    rw [absolute_stem hms, mountPath, if_neg hroot]
    by_cases hrest : rest = []
    · subst hrest
      rw [List.append_nil, absolute_stem hms, List.drop_length, if_neg (by simp [hms])]
    · rw [if_pos (Or.inr hrest), absolute_append hrest, List.drop_left]

/-- What a lookup gives for a path: a mount whose names begin the names of the path. -/
theorem lookup_mounted (hnormal : ∀ q ∈ mountedPaths m.table, Path.Normal '/' ['.'] ['.', '.'] q)
    (h : dfs_filesystem_lookup m.table p = some fs) : p.head? = some '/' ∧
      ∃ mount ops, m.mounted fs = some (mount, ops) ∧ Path.Normal '/' ['.'] ['.', '.'] mount ∧
        Tested mount p := by
  obtain ⟨iter, mount, hiter, hmount, hops, htest⟩ := lookup_tested h
  obtain ⟨ops, hops⟩ := Option.isSome_iff_exists.mp hops
  have hmem : mount ∈ mountedPaths m.table :=
    List.mem_filterMap.mpr ⟨iter, List.mem_of_getElem? hiter, hmount⟩
  obtain ⟨ms, hms, hms'⟩ := hnormal mount hmem
  refine ⟨?_, mount, m.fileOps ops, ?_, hnormal mount hmem, htest⟩
  · obtain ⟨t, ht⟩ := Path.absolute_eq_cons '/' ms
    have hcons : mount = '/' :: t := hms'.trans ht
    have htake : mount = p.take mount.length := by simpa [Tested, strncmpEq] using htest.1
    rw [hcons] at htake
    cases p with
    | nil => simp at htake
    | cons c p => exact congrArg some (List.cons.inj htake).1.symm
  · simp [Mounts.mounted, hiter, hmount, hops]

/-- A path that a mount covers is the names of the mount and the names below it. -/
theorem split_names (hp : Path.Normal '/' ['.'] ['.', '.'] p) (hms : Proper ms)
    (htest : Tested (Path.absolute '/' ms) p) :
    ∃ rest, Proper (ms ++ rest) ∧ p = Path.absolute '/' (ms ++ rest) := by
  obtain ⟨ps, hps, rfl⟩ := hp
  obtain ⟨rest, rfl⟩ := (tested_iff hms hps).mp htest
  exact ⟨rest, hps, rfl⟩

theorem absolute_inj {names names' : List (List Char)} (h : Proper names) (h' : Proper names') :
    Path.absolute '/' names = Path.absolute '/' names' ↔ names = names' := by
  refine ⟨fun heq => ?_, fun heq => by rw [heq]⟩
  rw [← Path.words_absolute h, heq, Path.words_absolute h']

/-- The file system gets paths as `fd_is_open` looks for them: it does not take full paths, or it is the
root. -/
def Plain (ops : FileOps) (mount : List Char) : Prop :=
  mount = ['/'] ∨ ops.flags &&& DFS_FS_FLAG_FULLPATH = 0

/-- When the stored path of a file is the one that `fd_is_open` looks for. -/
theorem stored_match {ops : FileOps} {mount q : List Char} {strdup : Bool} {stored : Option (List Char)}
    (hmount : Path.Normal '/' ['.'] ['.', '.'] mount) (hp : Path.Normal '/' ['.'] ['.', '.'] p)
    (hq : Path.Normal '/' ['.'] ['.', '.'] q) (htp : Tested mount p) (htq : Tested mount q)
    (hstored : storedPath ops mount q strdup = some stored) :
    stored = some (mountPath mount p) ↔ stored ≠ none ∧
      (Plain ops mount ∧ (mount = ['/'] ∨ p ≠ mount) ∧ q = p ∨
        ¬Plain ops mount ∧ q = p.drop mount.length) := by
  obtain ⟨ms, hms, hmount⟩ := hmount
  rw [← Path.absolute] at hmount
  subst hmount
  obtain ⟨rest, hps, rfl⟩ := split_names hp hms htp
  obtain ⟨rest', hqs, rfl⟩ := split_names hq hms htq
  have hroot : Path.absolute '/' ms = ['/'] ↔ ms = [] := @absolute_inj ms [] hms (by simp [Proper])
  have hsame : Path.absolute '/' (ms ++ rest') = Path.absolute '/' (ms ++ rest) ↔ rest' = rest := by
    rw [absolute_inj hqs hps, List.append_cancel_left_eq]
  have hself : Path.absolute '/' (ms ++ rest) ≠ Path.absolute '/' ms ↔ rest ≠ [] := by
    rw [Ne, absolute_inj hps hms]
    simp
  have hrest : Proper rest := fun c hc => hps c (List.mem_append_right ms hc)
  have hrest' : Proper rest' := fun c hc => hqs c (List.mem_append_right ms hc)
  have hbelow : Path.absolute '/' rest' = mountPath (Path.absolute '/' ms) (Path.absolute '/' (ms ++ rest)) ↔
      (ms = [] ∨ rest ≠ []) ∧ rest' = rest := by
    rw [mountPath_eq hps]
    split
    · next h => rw [absolute_inj hrest' hrest]; simp [h]
    · next h =>
      obtain ⟨t, ht⟩ := Path.absolute_eq_cons '/' rest'
      simp [h, ht]
  rw [storedPath] at hstored
  rw [hroot, hself, hsame]
  by_cases hflag : ops.flags &&& DFS_FS_FLAG_FULLPATH = 0
  · have hplain : Plain ops (Path.absolute '/' ms) := Or.inr hflag
    rw [if_pos hflag, pathBelow_eq hqs] at hstored
    obtain rfl := Option.some.inj hstored
    cases strdup with
    | false => simp
    | true => simpa [hplain] using hbelow
  · rw [if_neg hflag] at hstored
    obtain rfl := Option.some.inj hstored
    have hplain : Plain ops (Path.absolute '/' ms) ↔ ms = [] := by
      rw [Plain, hroot]
      exact or_iff_left hflag
    rw [hplain]
    by_cases hnil : ms = []
    · subst hnil
      simpa using hbelow
    · rw [mountPath, if_neg fun h => hnil (hroot.mp h)]
      simp [hnil]

end Paths

section Scan

variable {fdt : DfsFdtable} {fs : Nat} {mountpath : List Char}

/-- `fd_is_open` finds a structure of the file system with the path. -/
theorem anyOpen_spec (entries : List (Option Nat))
    (halloc : ∀ d, some d ∈ entries → ∃ fd, fdt.heap d = some fd) :
    ∃ b, anyOpen fdt fs mountpath entries = some b ∧
      (b = true ↔ ∃ d fd, some d ∈ entries ∧ fdt.heap d = some fd ∧ fd.fops = true ∧
        fd.fs = some fs ∧ fd.path = some mountpath) := by
  induction entries with
  | nil => exact ⟨false, rfl, by simp⟩
  | cons e entries ih =>
    obtain ⟨b, hb, hiff⟩ := ih fun d hd => halloc d (List.mem_cons_of_mem e hd)
    cases e with
    | none => exact ⟨b, hb, by rw [hiff]; simp⟩
    | some d =>
      obtain ⟨fd, hfd⟩ := halloc d List.mem_cons_self
      simp only [anyOpen, hfd, Option.bind_eq_bind, Option.bind_some]
      have hother : ¬(fd.fops = true ∧ fd.fs = some fs ∧ fd.path = some mountpath) →
          (b = true ↔ ∃ d' fd', some d' ∈ some d :: entries ∧ fdt.heap d' = some fd' ∧
            fd'.fops = true ∧ fd'.fs = some fs ∧ fd'.path = some mountpath) := by
        intro hnot
        rw [hiff]
        constructor
        · rintro ⟨d', fd', hmem, hrest⟩
          exact ⟨d', fd', List.mem_cons_of_mem _ hmem, hrest⟩
        · rintro ⟨d', fd', hmem, hfd', hrest⟩
          rcases List.mem_cons.mp hmem with heq | hmem
          · obtain rfl := Option.some.inj heq
            obtain rfl := Option.some.inj (hfd.symm.trans hfd')
            exact absurd hrest hnot
          · exact ⟨d', fd', hmem, hfd', hrest⟩
      split
      · next hskip =>
        refine ⟨b, hb, hother ?_⟩
        rintro ⟨hfops, -, hpath⟩
        rcases hskip with h | h
        · rw [hfops] at h
          cases h
        · rw [hpath] at h
          cases h
      · next hopen =>
        rw [not_or] at hopen
        split
        · next hmatch =>
          have hfops : fd.fops = true := by simpa using hopen.1
          exact ⟨true, rfl, fun _ => ⟨d, fd, List.mem_cons_self, hfd, hfops, hmatch⟩, fun _ => rfl⟩
        · next hmatch => exact ⟨b, hb, hother fun h => hmatch h.2⟩

end Scan

section Runs

variable {m : Mounts} {s s' : Opened} {fdt fdt' : DfsFdtable} {path p : List Char} {d : Nat}

/-- What `dfs_file_open` does to a structure, once the file system is found. -/
inductive Opens (m : Mounts) (fdt : DfsFdtable) (host : OpenHost) (d : Nat) (path : List Char) :
    Int → DfsFdtable → Prop where
  | refused (result : Int) : result ≠ 0 → Opens m fdt host d path result fdt
  | failed (result : Int) (f : DfsFd) (fs : Nat) : result ≠ 0 → fdt.heap d = some f →
      Opens m fdt host d path result
        (fdt.store d { f with fs := some fs, fops := true, path := none })
  | done (f : DfsFd) (fullpath mount : List Char) (fs : Nat) (ops : FileOps)
      (stored : Option (List Char)) :
      dfs_normalize_path host.memory host.working_directory.path none path = some fullpath →
      dfs_filesystem_lookup m.table fullpath = some fs → m.mounted fs = some (mount, ops) →
      fdt.heap d = some f → storedPath ops mount fullpath host.strdup = some stored →
      Opens m fdt host d path 0 (fdt.store d { f with fs := some fs, fops := true, path := stored })

theorem dfs_file_open_opens {host : OpenHost} {result : Int}
    (h : m.dfs_file_open fdt host d path = some (result, fdt')) :
    Opens m fdt host d path result fdt' := by
  rw [Mounts.dfs_file_open] at h
  cases hpath : dfs_normalize_path host.memory host.working_directory.path none path with
  | none =>
    rw [hpath] at h
    obtain ⟨rfl, rfl⟩ := Prod.mk.inj (Option.some.inj h)
    exact .refused _ (by decide)
  | some fullpath =>
    rw [hpath] at h
    dsimp only at h
    cases hfs : dfs_filesystem_lookup m.table fullpath with
    | none =>
      rw [hfs] at h
      obtain ⟨rfl, rfl⟩ := Prod.mk.inj (Option.some.inj h)
      exact .refused _ (by decide)
    | some fs =>
      rw [hfs] at h
      obtain ⟨⟨mount, ops⟩, hmounted, h⟩ := Option.bind_eq_some_iff.mp h
      obtain ⟨f, hf, h⟩ := Option.bind_eq_some_iff.mp h
      obtain ⟨stored, hstored, h⟩ := Option.bind_eq_some_iff.mp h
      split at h
      · obtain ⟨rfl, rfl⟩ := Prod.mk.inj (Option.some.inj h)
        exact .failed _ f fs (by decide) hf
      split at h
      · next hneg =>
        obtain ⟨rfl, rfl⟩ := Prod.mk.inj (Option.some.inj h)
        exact .failed _ f fs (by omega) hf
      · obtain ⟨rfl, rfl⟩ := Prod.mk.inj (Option.some.inj h)
        exact .done f fullpath mount fs ops stored hpath hfs hmounted hf hstored

theorem dfs_file_close_cases {close result : Int}
    (h : m.dfs_file_close fdt close d = some (result, fdt')) :
    result < 0 ∧ fdt' = fdt ∨ ¬result < 0 ∧ ∃ f, fdt.heap d = some f ∧
      fdt' = fdt.store d { f with path := none } := by
  obtain ⟨f, hf, h⟩ := Option.bind_eq_some_iff.mp h
  obtain ⟨fs, -, h⟩ := Option.bind_eq_some_iff.mp h
  obtain ⟨⟨mount, ops⟩, -, h⟩ := Option.bind_eq_some_iff.mp h
  dsimp only at h
  generalize (if ops.fopsClose = true then close else 0) = answer at h
  split at h
  · next hneg =>
    obtain ⟨rfl, rfl⟩ := Prod.mk.inj (Option.some.inj h)
    exact Or.inl ⟨hneg, rfl⟩
  · next hpos =>
    obtain ⟨rfl, rfl⟩ := Prod.mk.inj (Option.some.inj h)
    exact Or.inr ⟨hpos, f, hf, rfl⟩

/-- A structure without a file stays without one. -/
theorem Opened.Inv.unopened {f f' : DfsFd} (h : s.Inv m) (hf : s.shared.fdt.heap d = some f)
    (hmagic : f'.magic = f.magic) (hcount : f'.ref_count = f.ref_count) (hpath : f'.path = none)
    {opened : Nat → Option (List Char)} (hd : opened d = none)
    (hother : ∀ e, e ≠ d → opened e = s.opened e) :
    Opened.Inv m ⟨⟨s.shared.fdt.store d f', s.shared.refs⟩, opened⟩ := by
  refine ⟨h.shared.rewritten hf hmagic hcount, fun e p he => ?_, fun e g hg he => ?_⟩
  · have he : opened e = some p := he
    have hne : e ≠ d := fun heq => by simp [heq, hd] at he
    obtain ⟨hp, fs, mount, ops, fd, strdup, hfs, hmounted, hfd, hrest⟩ :=
      h.file e p ((hother e hne).symm.trans he)
    exact ⟨hp, fs, mount, ops, fd, strdup, hfs, hmounted, (store_other _ f' hne).trans hfd, hrest⟩
  · have he : opened e = none := he
    by_cases heq : e = d
    · subst heq
      obtain rfl := Option.some.inj ((store_self _ _ _).symm.trans hg)
      exact hpath
    · exact h.closed e g ((store_other _ f' heq).symm.trans hg) ((hother e heq).symm.trans he)

theorem Opened.Inv.next (hnormal : ∀ q ∈ mountedPaths m.table, Path.Normal '/' ['.'] ['.', '.'] q)
    {call : FileCall} (h : s.Inv m) (hstep : s.next m call = some s') : s'.Inv m := by
  cases call with
  | fd op =>
    obtain ⟨shared, hshared, hstep⟩ := Option.bind_eq_some_iff.mp hstep
    obtain rfl := Option.some.inj hstep
    have hmoves := h.shared.moves hshared
    refine ⟨h.shared.next hshared, fun d p hd => ?_, fun d f' hf' hd => ?_⟩
    · obtain ⟨hsome, hd⟩ := Option.ite_none_right_eq_some.mp hd
      obtain ⟨f', hf'⟩ := Option.isSome_iff_exists.mp hsome
      obtain ⟨hp, fs, mount, ops, fd, strdup, hfs, hmounted, hfd, hfops, hfdfs, hstored⟩ := h.file d p hd
      rcases hmoves.kept hf' with ⟨f, hf, hpath, hfsEq, hfopsEq⟩ | ⟨hnone, -⟩
      · obtain rfl := Option.some.inj (hfd.symm.trans hf)
        exact ⟨hp, fs, mount, ops, f', strdup, hfs, hmounted, hf', hfopsEq.trans hfops,
          hfsEq.trans hfdfs, hpath ▸ hstored⟩
      · rw [hfd] at hnone
        cases hnone
    · have hd : (if (shared.fdt.heap d).isSome then s.opened d else none) = none := hd
      rw [if_pos (by rw [hf']; rfl)] at hd
      rcases hmoves.kept hf' with ⟨f, hf, hpath, -, -⟩ | ⟨-, hpath⟩
      · exact hpath.trans (h.closed d f hf hd)
      · exact hpath
  | file_open host d path =>
    obtain ⟨hnot, hstep⟩ := Option.ite_none_left_eq_some.mp hstep
    rw [not_not] at hnot
    obtain ⟨⟨result, fdt⟩, hopen, hstep⟩ := Option.bind_eq_some_iff.mp hstep
    obtain rfl := Option.some.inj hstep
    cases dfs_file_open_opens hopen with
    | refused result hne =>
      rw [if_neg hne]
      exact ⟨h.shared, h.file, h.closed⟩
    | failed result f fs hne hf =>
      rw [if_neg hne]
      refine h.unopened hf ?_ ?_ ?_ hnot fun _ _ => rfl
      all_goals rfl
    | done f fullpath mount fs ops stored hpath hfs hmounted hf hstored =>
      rw [if_pos rfl, hpath]
      have hhead := (lookup_mounted hnormal hfs).1
      have hjoin : (joined host.working_directory.path path).head? = some '/' := by
        rw [joined]
        split
        · rw [List.head?_append, host.working_directory.absolute]
          rfl
        · next habs => simpa using habs
      have hp := @dfs_normalize_path_normal _ _ _ _ none hjoin hpath hhead
      refine ⟨h.shared.rewritten hf rfl rfl, fun e p he => ?_, fun e g hg he => ?_⟩
      · have he : Function.update s.opened d (some fullpath) e = some p := he
        rw [Function.update_apply] at he
        split at he
        · next heq =>
          obtain rfl := Option.some.inj he
          subst heq
          exact ⟨hp, fs, mount, ops, _, host.strdup, hfs, hmounted, store_self .., rfl, rfl, hstored⟩
        · next hne =>
          obtain ⟨hp, fs, mount, ops, fd, strdup, hfs, hmounted, hfd, hrest⟩ := h.file e p he
          exact ⟨hp, fs, mount, ops, fd, strdup, hfs, hmounted, (store_other _ _ hne).trans hfd, hrest⟩
      · have he : Function.update s.opened d (some fullpath) e = none := he
        rw [Function.update_apply] at he
        split at he
        · cases he
        · next hne => exact h.closed e g ((store_other _ _ hne).symm.trans hg) he
  | file_close close d =>
    obtain ⟨⟨result, fdt⟩, hclose, hstep⟩ := Option.bind_eq_some_iff.mp hstep
    obtain rfl := Option.some.inj hstep
    rcases dfs_file_close_cases hclose with ⟨hneg, rfl⟩ | ⟨hpos, f, hf, rfl⟩
    · rw [if_pos hneg]
      exact ⟨h.shared, h.file, h.closed⟩
    · rw [if_neg hpos]
      refine h.unopened hf ?_ ?_ ?_ (Function.update_self ..) fun e hne => Function.update_of_ne hne _ _
      all_goals rfl

theorem reachable_files (hnormal : ∀ q ∈ mountedPaths m.table, Path.Normal '/' ['.'] ['.', '.'] q)
    (hr : (openFiles m).Reachable s) : s.Inv m := by
  refine hr.invariant ?_ fun s call s' _ h hstep => h.next hnormal hstep
  rintro s ⟨hstart, hnone⟩
  refine ⟨reachable_inv (.start hstart), fun d p hd => ?_, fun d fd hfd _ => ?_⟩
  · rw [hnone] at hd
    cases hd
  · have hheap : s.shared.fdt.heap d = none := by rw [show s.shared = _ from hstart]
    rw [hheap] at hfd
    cases hfd

/-- An open file of the file system has the path that is looked for. -/
def Opened.Listed (m : Mounts) (s : Opened) (fs : Nat) (mountpath : List Char) : Prop :=
  ∃ d q fd, s.opened d = some q ∧ dfs_filesystem_lookup m.table q = some fs ∧
    s.shared.fdt.heap d = some fd ∧ fd.path = some mountpath

theorem Opened.Inv.anyOpen {fs : Nat} {mountpath : List Char} (h : s.Inv m) :
    ∃ b, Dfs.anyOpen s.shared.fdt fs mountpath (s.shared.fdt.fds.take s.shared.fdt.maxfd) = some b ∧
      (b = true ↔ s.Listed m fs mountpath) := by
  rw [h.shared.slots, List.take_length]
  have halloc : ∀ d, some d ∈ s.shared.fdt.fds → ∃ fd, s.shared.fdt.heap d = some fd := by
    intro d hd
    obtain ⟨i, hi⟩ := List.mem_iff_getElem?.mp hd
    exact h.shared.allocated i d hi
  obtain ⟨b, hb, hiff⟩ := @anyOpen_spec s.shared.fdt fs mountpath s.shared.fdt.fds halloc
  refine ⟨b, hb, hiff.trans ⟨?_, ?_⟩⟩
  · rintro ⟨d, fd, -, hfd, -, hfs, hpath⟩
    obtain ⟨q, hq⟩ : ∃ q, s.opened d = some q := by
      rw [← Option.ne_none_iff_exists']
      intro hnone
      rw [h.closed d fd hfd hnone] at hpath
      cases hpath
    obtain ⟨-, fs', mount, ops, fd', strdup, hlookup, -, hfd', -, hfs', -⟩ := h.file d q hq
    obtain rfl := Option.some.inj (hfd.symm.trans hfd')
    obtain rfl := Option.some.inj (hfs.symm.trans hfs')
    exact ⟨d, q, fd, hq, hlookup, hfd, hpath⟩
  · rintro ⟨d, q, fd, hq, hlookup, hfd, hpath⟩
    obtain ⟨-, fs', mount, ops, fd', strdup, hlookup', -, hfd', hfops, hfs', -⟩ := h.file d q hq
    obtain rfl := Option.some.inj (hfd.symm.trans hfd')
    obtain rfl := Option.some.inj (hlookup.symm.trans hlookup')
    obtain ⟨i, hi⟩ := h.shared.listed d (h.shared.count d fd hfd).2.1
    exact ⟨d, fd, List.mem_of_getElem? hi, hfd, hfops, hfs', hpath⟩

theorem callUnlink_ne (ops : FileOps) (mount p : List Char) (result : Int) :
    Mounts.callUnlink ops mount p result ≠ some (-EBUSY, none) := by
  rw [Mounts.callUnlink]
  split
  · split
    · cases pathBelow mount p <;> simp
    · simp
  · simp [ENOSYS, EBUSY]

/-- `dfs_file_unlink` is refused where `fd_is_open` finds the file. -/
theorem unlink_eq_busy {host : UnlinkHost} {fs : Nat} {mount : List Char} {ops : FileOps} (h : s.Inv m)
    (hpath : dfs_normalize_path true host.working_directory.path none path = some p)
    (hp : Path.Normal '/' ['.'] ['.', '.'] p) (hfs : dfs_filesystem_lookup m.table p = some fs)
    (hmounted : m.mounted fs = some (mount, ops)) :
    m.dfs_file_unlink s.shared.fdt host path = some (-EBUSY, none) ↔
      host.memory = true ∧ host.openMemory = true ∧ s.Listed m fs (mountPath mount p) := by
  have hself : dfs_normalize_path true host.working_directory.path none p = some p :=
    dfs_normalize_path_self hp
  obtain ⟨b, hb, hlisted⟩ := @Opened.Inv.anyOpen m s fs (mountPath mount p) h
  rw [Mounts.dfs_file_unlink]
  cases hmemory : host.memory with
  | false =>
    have hnone : dfs_normalize_path false host.working_directory.path none path = none := rfl
    rw [hnone]
    simp [EINVAL, EBUSY]
  | true =>
    rw [hpath]
    simp only [hfs, Mounts.fd_is_open]
    cases hopen : host.openMemory with
    | false =>
      have hnone : dfs_normalize_path false host.working_directory.path none p = none := rfl
      rw [hnone]
      simpa [hmounted] using callUnlink_ne ops mount p host.result
    | true =>
      rw [hself]
      simp only [hfs, hmounted, hb, Option.bind_eq_bind, Option.bind_some]
      rw [← hlisted]
      cases b with
      | true => simp
      | false => simpa using callUnlink_ne ops mount p host.result

/-- `dfs_file_unlink` is refused while the file is open under any name. -/
def Opened.Refused (m : Mounts) (s : Opened) (host : UnlinkHost) (path : List Char) : Prop :=
  ∀ p, dfs_normalize_path true host.working_directory.path none path = some p →
    (∃ d, s.opened d = some p) →
    m.dfs_file_unlink s.shared.fdt host path = some (-EBUSY, none)

/-- There is memory for both copies of the name, and the file that is open is seen: it is not the mount
itself, and its path could be stored; or, where the file system takes full paths and is not the root,
what remains of the name below the mount is the full path of another open file. -/
def Opened.Seen (m : Mounts) (s : Opened) (host : UnlinkHost) (path : List Char) : Prop :=
  ∀ p, dfs_normalize_path true host.working_directory.path none path = some p →
    (∃ d, s.opened d = some p) → host.memory = true ∧ host.openMemory = true ∧
    ∀ fs mount ops, dfs_filesystem_lookup m.table p = some fs → m.mounted fs = some (mount, ops) →
      Plain ops mount ∧ (mount = ['/'] ∨ p ≠ mount) ∧
        (∃ d fd, s.opened d = some p ∧ s.shared.fdt.heap d = some fd ∧ fd.path ≠ none) ∨
      ¬Plain ops mount ∧ (∃ d, s.opened d = some (p.drop mount.length)) ∧
        dfs_filesystem_lookup m.table (p.drop mount.length) = some fs

theorem dfs_file_unlink_refused
    (hnormal : ∀ q ∈ mountedPaths m.table, Path.Normal '/' ['.'] ['.', '.'] q)
    (hr : (openFiles m).Reachable s) (host : UnlinkHost) (path : List Char) :
    s.Refused m host path ↔ s.Seen m host path := by
  have h := reachable_files hnormal hr
  refine forall_congr' fun p => forall_congr' fun hpath => forall_congr' fun hopened => ?_
  obtain ⟨d, hd⟩ := hopened
  obtain ⟨hp, fs, mount, ops, -, -, hfs, hmounted, -⟩ := h.file d p hd
  rw [unlink_eq_busy h hpath hp hfs hmounted]
  refine and_congr_right fun _ => and_congr_right fun _ => ?_
  obtain ⟨-, mount', ops', hmounted', hmount, htest⟩ := lookup_mounted hnormal hfs
  obtain ⟨rfl, rfl⟩ := Prod.mk.inj (Option.some.inj (hmounted.symm.trans hmounted'))
  have hmatch : ∀ e q fd, s.opened e = some q → dfs_filesystem_lookup m.table q = some fs →
      s.shared.fdt.heap e = some fd →
      (fd.path = some (mountPath mount p) ↔ fd.path ≠ none ∧
        (Plain ops mount ∧ (mount = ['/'] ∨ p ≠ mount) ∧ q = p ∨
          ¬Plain ops mount ∧ q = p.drop mount.length)) := by
    intro e q fd he hq hfd
    obtain ⟨hqn, fs', mount', ops', fd', strdup, hfs', hm', hfd', -, -, hstored⟩ := h.file e q he
    obtain rfl := Option.some.inj (hq.symm.trans hfs')
    obtain ⟨rfl, rfl⟩ := Prod.mk.inj (Option.some.inj (hmounted.symm.trans hm'))
    obtain rfl := Option.some.inj (hfd.symm.trans hfd')
    obtain ⟨-, mount', ops', hm', -, htq⟩ := lookup_mounted hnormal hq
    obtain ⟨rfl, rfl⟩ := Prod.mk.inj (Option.some.inj (hmounted.symm.trans hm'))
    exact stored_match hmount hp hqn htest htq hstored
  constructor
  · rintro ⟨e, q, fd, he, hq, hfd, hpath⟩ fs' mount' ops' hfs' hm'
    obtain rfl := Option.some.inj (hfs.symm.trans hfs')
    obtain ⟨rfl, rfl⟩ := Prod.mk.inj (Option.some.inj (hmounted.symm.trans hm'))
    rcases (hmatch e q fd he hq hfd).mp hpath with ⟨hsome, ⟨hplain, hself, rfl⟩ | ⟨hplain, rfl⟩⟩
    · exact Or.inl ⟨hplain, hself, e, fd, he, hfd, hsome⟩
    · exact Or.inr ⟨hplain, ⟨e, he⟩, hq⟩
  · intro hseen
    rcases hseen fs mount ops hfs hmounted with
      ⟨hplain, hself, e, fd, he, hfd, hsome⟩ | ⟨hplain, ⟨e, he⟩, hq⟩
    · exact ⟨e, p, fd, he, hfs, hfd, (hmatch e p fd he hfs hfd).mpr ⟨hsome, Or.inl ⟨hplain, hself, rfl⟩⟩⟩
    · obtain ⟨-, fs', mount', ops', fd, strdup, hfs', hm', hfd, -, -, hstored⟩ := h.file e _ he
      obtain rfl := Option.some.inj (hq.symm.trans hfs')
      obtain ⟨rfl, rfl⟩ := Prod.mk.inj (Option.some.inj (hmounted.symm.trans hm'))
      have hflag : ¬ops.flags &&& DFS_FS_FLAG_FULLPATH = 0 := fun hflag => hplain (Or.inr hflag)
      rw [storedPath, if_neg hflag] at hstored
      have hsome : fd.path ≠ none := by
        rw [← Option.some.inj hstored]
        exact Option.some_ne_none _
      exact ⟨e, _, fd, he, hq, hfd, (hmatch e _ fd he hq hfd).mpr ⟨hsome, Or.inr ⟨hplain, rfl⟩⟩⟩

/-! ### One open file -/

/-- A file system with the flags, mounted on `/m`. -/
def slashM (flags : BitVec 32) : Mounts :=
  ⟨[⟨none, some ['/', 'm'], some ⟨['e', 'l', 'm'], true, true⟩⟩], fun _ => ⟨flags, true, true, true⟩⟩

def fileA : List Char := ['/', 'm', '/', 'a']

theorem slashM_normal (flags : BitVec 32) :
    ∀ q ∈ mountedPaths (slashM flags).table, Path.Normal '/' ['.'] ['.', '.'] q := by
  intro q hq
  obtain rfl : q = ['/', 'm'] := by simpa [mountedPaths, slashM] using hq
  exact ⟨[['m']], by simpa using ⟨by decide, by decide, by decide, by decide⟩, rfl⟩

theorem fileA_normal : Path.Normal '/' ['.'] ['.', '.'] fileA := by
  refine ⟨[['m'], ['a']], ?_, rfl⟩
  simpa using ⟨⟨by decide, by decide, by decide, by decide⟩, by decide, by decide, by decide, by decide⟩

/-- `/m/a` is opened. -/
theorem reachable_fileA (flags : BitVec 32) : ∃ s fd, (openFiles (slashM flags)).Reachable s ∧
    s.opened = Function.update (fun _ => none) 7 (some fileA) ∧ s.shared.fdt.heap 7 = some fd ∧
    storedPath ⟨flags, true, true, true⟩ ['/', 'm'] fileA true = some fd.path := by
  have hstart : (openFiles (slashM flags)).Reachable
      ⟨⟨⟨0, [], fun _ => none⟩, fun _ => 0⟩, fun _ => none⟩ := .start ⟨rfl, fun _ => rfl⟩
  obtain ⟨s, fd, hr, hnone, hfd⟩ : ∃ s fd, (openFiles (slashM flags)).Reachable s ∧
      s.opened = (fun _ => none) ∧ s.shared.fdt.heap 7 = some fd := by
    refine ⟨_, _, hstart.next (l := .fd (.new ⟨true, some 7⟩)) rfl, ?_, rfl⟩
    funext d
    exact ite_self _
  obtain ⟨stored, hstored⟩ : ∃ stored,
      storedPath ⟨flags, true, true, true⟩ ['/', 'm'] fileA true = some stored := by
    rw [storedPath]
    split
    · exact ⟨some ['/', 'a'], rfl⟩
    · exact ⟨_, rfl⟩
  have hself : dfs_normalize_path true ['/'] none fileA = some fileA :=
    dfs_normalize_path_self fileA_normal
  have hopen : (slashM flags).dfs_file_open s.shared.fdt ⟨⟨['/'], rfl⟩, true, true, 0⟩ 7 fileA =
      some (0, s.shared.fdt.store 7 { fd with fs := some 0, fops := true, path := stored }) := by
    have hlookup : dfs_filesystem_lookup (slashM flags).table fileA = some 0 := rfl
    have hmounted : (slashM flags).mounted 0 = some (['/', 'm'], ⟨flags, true, true, true⟩) := rfl
    rw [Mounts.dfs_file_open, hself]
    simp only [hlookup, hmounted, hfd, hstored, Option.bind_eq_bind, Option.bind_some]
    rfl
  have hstep : s.next (slashM flags) (.file_open ⟨⟨['/'], rfl⟩, true, true, 0⟩ 7 fileA) = some
      ⟨⟨s.shared.fdt.store 7 { fd with fs := some 0, fops := true, path := stored }, s.shared.refs⟩,
        Function.update (fun _ => none) 7 (some fileA)⟩ := by
    rw [Opened.next, if_neg (by simp [hnone]), hopen]
    simp only [hnone, hself, Option.bind_eq_bind, Option.bind_some, if_true]
  exact ⟨_, _, hr.next hstep, rfl, store_self .., hstored⟩

/-- The host of an unlink from the root, with memory for everything. -/
def freeHost : UnlinkHost := ⟨⟨['/'], rfl⟩, true, true, 0⟩

theorem fileA_self : dfs_normalize_path true freeHost.working_directory.path none fileA = some fileA :=
  dfs_normalize_path_self fileA_normal

/-- The open file is not unlinked, when the file system does not take full paths. -/
theorem dfs_file_unlink_refused_plain : ∃ s, (openFiles (slashM 0)).Reachable s ∧
    s.opened 7 = some fileA ∧ s.Refused (slashM 0) freeHost fileA := by
  obtain ⟨s, fd, hr, hopened, hfd, hstored⟩ := reachable_fileA 0
  have h7 : s.opened 7 = some fileA := by rw [hopened]; rfl
  refine ⟨s, hr, h7, (dfs_file_unlink_refused (slashM_normal 0) hr freeHost fileA).mpr ?_⟩
  intro p hp _
  obtain rfl := Option.some.inj (fileA_self.symm.trans hp)
  refine ⟨rfl, rfl, fun fs mount ops hfs hmounted => ?_⟩
  obtain rfl : 0 = fs := Option.some.inj hfs
  obtain ⟨rfl, rfl⟩ := Prod.mk.inj (Option.some.inj hmounted)
  refine Or.inl ⟨Or.inr rfl, Or.inr (by decide), 7, fd, h7, hfd, ?_⟩
  have hsome : fd.path = some ['/', 'a'] := (Option.some.inj hstored).symm
  rw [hsome]
  exact Option.some_ne_none _

/-- On a file system that takes full paths, the open file is unlinked. -/
theorem open_file_unlinked : ∃ s, (openFiles (slashM DFS_FS_FLAG_FULLPATH)).Reachable s ∧
    s.opened 7 = some fileA ∧ ¬s.Refused (slashM DFS_FS_FLAG_FULLPATH) freeHost fileA := by
  obtain ⟨s, fd, hr, hopened, hfd, hstored⟩ := reachable_fileA DFS_FS_FLAG_FULLPATH
  have h7 : s.opened 7 = some fileA := by rw [hopened]; rfl
  refine ⟨s, hr, h7, fun hrefused => ?_⟩
  have hbusy := hrefused fileA fileA_self ⟨7, h7⟩
  have h := reachable_files (slashM_normal DFS_FS_FLAG_FULLPATH) hr
  have hlookup : dfs_filesystem_lookup (slashM DFS_FS_FLAG_FULLPATH).table fileA = some 0 := rfl
  have hmounted : (slashM DFS_FS_FLAG_FULLPATH).mounted 0 =
      some (['/', 'm'], ⟨DFS_FS_FLAG_FULLPATH, true, true, true⟩) := rfl
  obtain ⟨-, -, e, q, fd', he, -, hfd', hpath⟩ :=
    (unlink_eq_busy h fileA_self fileA_normal hlookup hmounted).mp hbusy
  rw [hopened, Function.update_apply] at he
  split at he
  · next heq =>
    subst heq
    obtain rfl := Option.some.inj (hfd.symm.trans hfd')
    have hfull : fd.path = some fileA := (Option.some.inj hstored).symm
    rw [hfull] at hpath
    exact absurd (Option.some.inj hpath) (by decide)
  · cases he

end Runs

end Ab32Vg1.Dfs
