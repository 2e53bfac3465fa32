import Ab32Vg1.Dfs.Path
import Ab32Vg1.ProofKit.Transition

/-! The mount table of `dfs_fs.c`: `dfs_mount` and `dfs_unmount`. -/

namespace Ab32Vg1.Dfs

open ProofKit

def ENODEV : Int := 19

def ENOTDIR : Int := 20

def EINVAL : Int := 22

def ENOSPC : Int := 28

def ENOSYS : Int := 38

/-- `struct dfs_filesystem_ops`, with which of the two operations it has. -/
structure FilesystemOps where
  name : List Char
  mount : Bool
  unmount : Bool
deriving DecidableEq

/-- `struct dfs_filesystem`.  An entry is empty when `memset` has cleared it. -/
structure Filesystem where
  dev_id : Option Nat
  path : Option (List Char)
  ops : Option FilesystemOps
deriving DecidableEq

def Filesystem.cleared : Filesystem := ⟨none, none, none⟩

def DFS_FILESYSTEMS_MAX : Nat := 2

/-- What a call finds outside the table.  `mount` and `unmount` are the file system's own operations on
a path. -/
structure Host where
  working_directory : List Char
  filesystem_operation_table : List (Option FilesystemOps)
  rt_device_find : List Char → Option Nat
  memory : Bool
  dfs_file_open : List Char → Bool
  rt_device_open : Nat → Bool
  mount : List Char → Bool
  unmount : List Char → Bool

/-- The arguments of `dfs_mount`. -/
structure MountCall where
  device_name : Option (List Char)
  path : List Char
  filesystemtype : List Char

/-- How a call ends: with 0, or with -1 and the error number it sets. -/
abbrev Ends := Except (Option Int) Unit

/-- The entry of a type in `filesystem_operation_table`. -/
def Host.findType (host : Host) (filesystemtype : List Char) : Option FilesystemOps :=
  (host.filesystem_operation_table.find? fun ops => ops.any (·.name = filesystemtype)).join

/-- Only the root and `/dev` need not exist. -/
def Host.exists (host : Host) (fullpath : List Char) : Bool :=
  fullpath = ['/'] || fullpath = ['/', 'd', 'e', 'v'] || host.dfs_file_open fullpath

/-- `dfs_mount` after the checks: the entry is filled, and cleared again when the device or the file
system refuses. -/
def register (host : Host) (table : List Filesystem) (fs : Nat) (dev_id : Option Nat)
    (fullpath : List Char) (ops : FilesystemOps) : List Filesystem × Ends :=
  let registered := table.set fs ⟨dev_id, some fullpath, some ops⟩
  if dev_id.all host.rt_device_open && host.mount fullpath then (registered, .ok ())
  else (registered.set fs .cleared, .error none)

def dfs_mount (host : Host) (table : List Filesystem) (call : MountCall) : List Filesystem × Ends :=
  let dev_id := call.device_name.map host.rt_device_find
  if dev_id = some none then (table, .error (some (-ENODEV)))
  else
    match host.findType call.filesystemtype with
    | none => (table, .error (some (-ENODEV)))
    | some ops =>
      if ops.mount = false then (table, .error (some (-ENOSYS)))
      else
        match dfs_normalize_path host.memory host.working_directory none call.path with
        | none => (table, .error (some (-ENOTDIR)))
        | some fullpath =>
          if host.exists fullpath = false then (table, .error (some (-ENOTDIR)))
          -- the path as it was given, not the full path
          else if table.any fun iter => iter.ops.isSome && iter.path = some call.path then
            (table, .error (some (-EINVAL)))
          else
            match table.findIdx? fun iter => iter.ops = none with
            | none => (table, .error (some (-ENOSPC)))
            | some fs => register host table fs dev_id.join fullpath ops

/-- `none` is the access through an entry without operations. -/
def dfs_unmount (host : Host) (table : List Filesystem) (specialfile : List Char) :
    Option (List Filesystem × Ends) :=
  match dfs_normalize_path host.memory host.working_directory none specialfile with
  | none => some (table, .error (some (-ENOTDIR)))
  | some fullpath =>
    match table.findIdx? fun iter => iter.path = some fullpath with
    | none => some (table, .error none)
    | some fs => do
      let iter ← table[fs]?
      let ops ← iter.ops
      if ops.unmount && host.unmount fullpath then some (table.set fs .cleared, .ok ())
      else some (table, .error none)

/-- The paths of the mounted entries. -/
def mountedPaths (table : List Filesystem) : List (List Char) := table.filterMap (·.path)

/-- The place where a name leads from the root. -/
def place (filename : List Char) : Option (List (List Char)) :=
  Path.resolve ['.'] ['.', '.'] (Path.words '/' filename)

/-- The walk along a name does not leave the root, or ends there. -/
def Rooted (place : List (List Char)) : Prop := place = [] ∨ [] ∈ place

/-- An entry is cleared, or has both a path and the operations of its file system. -/
def Filesystem.Whole (fs : Filesystem) : Prop := fs = .cleared ∨ fs.path.isSome ∧ fs.ops.isSome

/-- Every entry is whole, and no two have the same path. -/
structure Table (table : List Filesystem) : Prop where
  whole : ∀ fs ∈ table, fs.Whole
  normal : ∀ p ∈ mountedPaths table, Path.Normal '/' ['.'] ['.', '.'] p
  distinct : (mountedPaths table).Nodup

/-- The entry at `fs` is the only one with the path. -/
structure OnlyAt (table : List Filesystem) (fs : Nat) (fullpath : List Char) : Prop where
  here : ∃ iter, table[fs]? = some iter ∧ iter.path = some fullpath
  only : ∀ i iter, table[i]? = some iter → iter.path = some fullpath → i = fs

/-- A call that refuses nothing but a path that is mounted. -/
structure Granted (host : Host) (table : List Filesystem) (call : MountCall) (fullpath : List Char) :
    Prop where
  memory : host.memory = true
  device : ∀ name ∈ call.device_name, ∃ dev, host.rt_device_find name = some dev ∧
    host.rt_device_open dev = true
  type : ∃ ops, host.findType call.filesystemtype = some ops ∧ ops.mount = true
  directory : host.exists fullpath = true
  room : ∃ iter ∈ table, iter.ops = none
  mount : host.mount fullpath = true

theorem findIdx?_cut {α : Type} {p : α → Bool} {l : List α} {i : Nat} (h : l.findIdx? p = some i) :
    ∃ pre x post, l = pre ++ x :: post ∧ i = pre.length ∧ p x = true ∧ ∀ y ∈ pre, p y = false := by
  obtain ⟨hi, hp, hpre⟩ := List.findIdx?_eq_some_iff_getElem.mp h
  refine ⟨l.take i, l[i], l.drop (i + 1), by simp, by simp; omega, hp, fun y hy => ?_⟩
  obtain ⟨j, hj, rfl⟩ := List.mem_take_iff_getElem.mp hy
  have hlt : j < i := by omega
  simpa using hpre j hlt

section Mounting

variable {host : Host} {table : List Filesystem} {call : MountCall} {fullpath : List Char}

theorem set_cut {α : Type} (pre post : List α) (x y : α) :
    (pre ++ x :: post).set pre.length y = pre ++ y :: post := by
  simp

/-- An entry without operations is cleared. -/
theorem Filesystem.Whole.cleared {fs : Filesystem} (h : fs.Whole) (hops : fs.ops = none) :
    fs = .cleared := by
  rcases h with h | ⟨-, h⟩
  · exact h
  · simp [hops] at h

/-- What a mount does: it is refused and the table stays, or a cleared entry is filled. -/
theorem dfs_mount_cases (host : Host) (call : MountCall) (ht : ∀ fs ∈ table, fs.Whole) :
    (∃ e, dfs_mount host table call = (table, .error e)) ∨
    ∃ fullpath dev_id ops pre post,
      dfs_normalize_path host.memory host.working_directory none call.path = some fullpath ∧
      Granted host table call fullpath ∧
      (∀ iter ∈ table, iter.ops.isSome → iter.path ≠ some call.path) ∧
      table = pre ++ .cleared :: post ∧
      dfs_mount host table call = (pre ++ ⟨dev_id, some fullpath, some ops⟩ :: post, .ok ()) := by
  unfold dfs_mount
  dsimp only
  by_cases hdev : call.device_name.map host.rt_device_find = some none
  · exact Or.inl ⟨_, if_pos hdev⟩
  rw [if_neg hdev]
  cases htype : host.findType call.filesystemtype with
  | none => exact Or.inl ⟨_, rfl⟩
  | some ops =>
    dsimp only
    by_cases hops : ops.mount = false
    · exact Or.inl ⟨_, if_pos hops⟩
    rw [if_neg hops]
    cases hpath : dfs_normalize_path host.memory host.working_directory none call.path with
    | none => exact Or.inl ⟨_, rfl⟩
    | some fullpath =>
      dsimp only
      by_cases hexists : host.exists fullpath = false
      · exact Or.inl ⟨_, if_pos hexists⟩
      rw [if_neg hexists]
      by_cases hmounted : (table.any fun iter => iter.ops.isSome && iter.path = some call.path) = true
      · exact Or.inl ⟨_, if_pos hmounted⟩
      rw [if_neg hmounted]
      cases hslot : table.findIdx? fun iter => iter.ops = none with
      | none => exact Or.inl ⟨_, rfl⟩
      | some fs =>
        obtain ⟨pre, iter, post, rfl, rfl, hiter, -⟩ := findIdx?_cut hslot
        have hempty : iter.ops = none := by simpa using hiter
        obtain rfl := (ht iter (by simp)).cleared hempty
        dsimp only [register]
        rw [set_cut]
        by_cases hok : ((call.device_name.map host.rt_device_find).join.all host.rt_device_open &&
            host.mount fullpath) = true
        · rw [if_pos hok]
          obtain ⟨hopen, hmount⟩ := Bool.and_eq_true_iff.mp hok
          refine Or.inr ⟨fullpath, _, ops, pre, post, rfl, ⟨?_, ?_, ?_, ?_, ?_, hmount⟩, ?_, rfl, rfl⟩
          · by_contra hmem
            simp [dfs_normalize_path, hmem] at hpath
          · intro name hname
            rw [Option.mem_def.mp hname] at hopen hdev
            cases hfind : host.rt_device_find name with
            | none => simp [hfind] at hdev
            | some dev => exact ⟨dev, rfl, by simpa [hfind] using hopen⟩
          · exact ⟨ops, htype, by simpa using hops⟩
          · simpa using hexists
          · exact ⟨.cleared, by simp, rfl⟩
          · intro iter hmem hsome heq
            exact hmounted (List.any_eq_true.mpr ⟨iter, hmem, by simp [hsome, heq]⟩)
        · rw [if_neg hok, set_cut]
          exact Or.inl ⟨_, rfl⟩

theorem mountedPaths_cut (pre post : List Filesystem) (fs : Filesystem) :
    mountedPaths (pre ++ fs :: post) = mountedPaths pre ++ (fs.path.toList ++ mountedPaths post) := by
  cases h : fs.path with
  | none => simp [mountedPaths, h]
  | some p => simp [mountedPaths, h]

/-- A place inside the root has a normal text. -/
theorem render_rooted {filename : List Char} {names : List (List Char)}
    (hplace : place filename = some names) (hroot : Rooted names) :
    Path.Normal '/' ['.'] ['.', '.'] (Path.render '/' names) := by
  obtain ⟨proper, hproper, rfl | rfl⟩ := Path.resolve_place hplace
  · exact Path.render_normal hproper
  · rcases hroot with rfl | hnil
    · exact @Path.render_normal _ '/' ['.'] ['.', '.'] [] (by simp)
    · exact absurd rfl (hproper [] hnil).ne_nil

/-- A mount of a path that stays inside the root and is not mounted keeps the table. -/
theorem Table.filled {pre post : List Filesystem} {dev_id : Option Nat} {ops : FilesystemOps}
    (ht : Table (pre ++ .cleared :: post)) (hnormal : Path.Normal '/' ['.'] ['.', '.'] fullpath)
    (hnew : fullpath ∉ mountedPaths (pre ++ .cleared :: post)) :
    Table (pre ++ ⟨dev_id, some fullpath, some ops⟩ :: post) := by
  obtain ⟨hwhole, hn, hd⟩ := ht
  simp only [mountedPaths_cut, Filesystem.cleared, Option.toList_none, List.nil_append] at hn hd hnew
  refine ⟨fun fs hfs => ?_, ?_, ?_⟩
  · rcases List.mem_append.mp hfs with hfs | hfs
    · exact hwhole fs (by simp [hfs])
    · rcases List.mem_cons.mp hfs with rfl | hfs
      · exact Or.inr ⟨rfl, rfl⟩
      · exact hwhole fs (by simp [hfs])
  · intro p hp
    simp only [mountedPaths_cut, Option.toList_some, List.singleton_append, List.mem_append,
      List.mem_cons] at hp
    rcases hp with hp | rfl | hp
    · exact hn p (List.mem_append_left _ hp)
    · exact hnormal
    · exact hn p (List.mem_append_right _ hp)
  · simp only [mountedPaths_cut, Option.toList_some, List.singleton_append]
    exact List.perm_middle.nodup_iff.mpr (List.nodup_cons.mpr ⟨hnew, hd⟩)

theorem Table.emptied {pre post : List Filesystem} {fs : Filesystem} (ht : Table (pre ++ fs :: post)) :
    Table (pre ++ .cleared :: post) := by
  obtain ⟨hwhole, hn, hd⟩ := ht
  have hsub : (mountedPaths (pre ++ .cleared :: post)).Sublist (mountedPaths (pre ++ fs :: post)) := by
    simp only [mountedPaths_cut, Filesystem.cleared, Option.toList_none, List.nil_append]
    exact (List.Sublist.refl _).append (List.sublist_append_right _ _)
  refine ⟨fun x hx => ?_, fun p hp => hn p (hsub.subset hp), hd.sublist hsub⟩
  rcases List.mem_append.mp hx with hx | hx
  · exact hwhole x (by simp [hx])
  · rcases List.mem_cons.mp hx with rfl | hx
    · exact Or.inl rfl
    · exact hwhole x (by simp [hx])

/-- What an unmount does to a table: nothing, or the entry with the full path is cleared. -/
theorem Table.unmount {specialfile : List Char} (ht : Table table) {r : List Filesystem × Ends}
    (h : dfs_unmount host table specialfile = some r) :
    (r.1 = table ∧ ∃ e, r.2 = .error e) ∨
    ∃ fullpath pre fs post,
      dfs_normalize_path host.memory host.working_directory none specialfile = some fullpath ∧
      table = pre ++ fs :: post ∧ fs.path = some fullpath ∧ r = (pre ++ .cleared :: post, .ok ()) := by
  unfold dfs_unmount at h
  cases hpath : dfs_normalize_path host.memory host.working_directory none specialfile with
  | none =>
    rw [hpath] at h
    obtain rfl := Option.some.inj h
    exact Or.inl ⟨rfl, _, rfl⟩
  | some fullpath =>
    rw [hpath] at h
    dsimp only at h
    cases hslot : table.findIdx? fun iter => iter.path = some fullpath with
    | none =>
      rw [hslot] at h
      obtain rfl := Option.some.inj h
      exact Or.inl ⟨rfl, _, rfl⟩
    | some i =>
      obtain ⟨pre, fs, post, rfl, rfl, hfs, -⟩ := findIdx?_cut hslot
      rw [hslot] at h
      simp only [List.getElem?_append_right (Nat.le_refl _), Nat.sub_self, List.getElem?_cons_zero,
        Option.bind_eq_bind, Option.bind_some, set_cut] at h
      obtain ⟨ops, -, h⟩ := Option.bind_eq_some_iff.mp h
      split at h
      · obtain rfl := Option.some.inj h
        exact Or.inr ⟨fullpath, pre, fs, post, rfl, rfl, by simpa using hfs, rfl⟩
      · obtain rfl := Option.some.inj h
        exact Or.inl ⟨rfl, _, rfl⟩

/-- The paths of a table are distinct, so an entry is the only one with its path. -/
theorem Table.onlyAt {pre post : List Filesystem} {fs : Filesystem} (ht : Table (pre ++ fs :: post))
    (hfs : fs.path = some fullpath) : OnlyAt (pre ++ fs :: post) pre.length fullpath := by
  have hd := ht.distinct
  rw [mountedPaths_cut, hfs, Option.toList_some, List.singleton_append, List.perm_middle.nodup_iff,
    List.nodup_cons, List.mem_append, not_or] at hd
  have hnot : ∀ {l : List Filesystem}, fullpath ∉ mountedPaths l → ∀ iter ∈ l, iter.path ≠ some fullpath :=
    fun hl iter hmem heq => hl (List.mem_filterMap.mpr ⟨iter, hmem, heq⟩)
  refine ⟨⟨fs, by simp, hfs⟩, fun i iter hi hiter => ?_⟩
  rcases Nat.lt_trichotomy i pre.length with hlt | heq | hgt
  · rw [List.getElem?_append_left hlt] at hi
    exact absurd hiter (hnot hd.1.1 iter (List.mem_of_getElem? hi))
  · exact heq
  · obtain ⟨k, rfl⟩ : ∃ k, i = pre.length + (k + 1) := ⟨i - pre.length - 1, by omega⟩
    rw [List.getElem?_append_right (Nat.le_add_right _ _), Nat.add_sub_cancel_left,
      List.getElem?_cons_succ] at hi
    exact absurd hiter (hnot hd.1.2 iter (List.mem_of_getElem? hi))

end Mounting

/-! ### Runs -/

inductive Op where
  | mount (host : Host) (call : MountCall)
  | unmount (host : Host) (specialfile : List Char)

/-- A call with an absolute name. -/
def next (table : List Filesystem) : Op → Option (List Filesystem)
  | .mount host call =>
    if call.path.head? = some '/' then some (dfs_mount host table call).1 else none
  | .unmount host specialfile =>
    if specialfile.head? = some '/' then (dfs_unmount host table specialfile).map (·.1) else none

/-- `dfs_init` clears the table. -/
def mountTable : Machine (List Filesystem) Op where
  start table := table = List.replicate DFS_FILESYSTEMS_MAX .cleared
  step table op table' := next table op = some table'

/-- A mount that nothing else refuses stays inside the root, and its full path is not mounted under
another spelling. -/
def Op.Sound (table : List Filesystem) : Op → Prop
  | .mount host call => ∀ names, place call.path = some names →
      Granted host table call (Path.render '/' names) →
      (∀ iter ∈ table, iter.ops.isSome → iter.path ≠ some call.path) →
      Rooted names ∧ Path.render '/' names ∉ mountedPaths table
  | .unmount _ _ => True

structure MountContract (table : List Filesystem) : Prop where
  normal : ∀ p ∈ mountedPaths table, Path.Normal '/' ['.'] ['.', '.'] p
  distinct : (mountedPaths table).Nodup
  failed : ∀ host call table' e, dfs_mount host table call = (table', .error e) → table' = table
  unmounted : ∀ host specialfile table', specialfile.head? = some '/' →
    dfs_unmount host table specialfile = some (table', .ok ()) →
    ∃ names fs, place specialfile = some names ∧ OnlyAt table fs (Path.render '/' names) ∧
      table' = table.set fs .cleared

section Runs

variable {table : List Filesystem}

/-- The full path of an absolute name, when there is memory for it. -/
theorem fullpath_place {host : Host} {filename fullpath : List Char} (habs : filename.head? = some '/')
    (h : dfs_normalize_path host.memory host.working_directory none filename = some fullpath) :
    ∃ names, place filename = some names ∧ fullpath = Path.render '/' names := by
  have hmem : host.memory = true := by
    by_contra hmem
    simp [dfs_normalize_path, hmem] at h
  rw [hmem, dfs_normalize_path_absolute habs] at h
  obtain ⟨names, hnames, heq⟩ := Option.map_eq_some_iff.mp h
  exact ⟨names, hnames, heq.symm⟩

theorem reachable_table (hr : (mountTable.restrict Op.Sound).Reachable table) : Table table := by
  apply hr.invariant
  · rintro _ rfl
    have hnone : mountedPaths (List.replicate DFS_FILESYSTEMS_MAX .cleared) = [] := rfl
    refine ⟨fun fs hfs => Or.inl (List.eq_of_mem_replicate hfs), ?_, ?_⟩
    · simp [hnone]
    · simp [hnone]
  · rintro table op table' - ht ⟨hsound, hstep⟩
    cases op with
    | mount host call =>
      obtain ⟨habs, hstep⟩ := Option.ite_none_right_eq_some.mp hstep
      obtain rfl := Option.some.inj hstep
      rcases dfs_mount_cases host call ht.whole with
        ⟨e, he⟩ | ⟨fullpath, dev_id, ops, pre, post, hpath, hgranted, hfree, rfl, heq⟩
      · rwa [he]
      · obtain ⟨names, hnames, rfl⟩ := fullpath_place habs hpath
        obtain ⟨hroot, hnew⟩ := hsound names hnames hgranted hfree
        rw [heq]
        exact ht.filled (render_rooted hnames hroot) hnew
    | unmount host specialfile =>
      obtain ⟨-, hstep⟩ := Option.ite_none_right_eq_some.mp hstep
      obtain ⟨r, hrun, rfl⟩ := Option.map_eq_some_iff.mp hstep
      rcases ht.unmount hrun with ⟨heq, -⟩ | ⟨fullpath, pre, fs, post, -, rfl, -, rfl⟩
      · rwa [heq]
      · exact ht.emptied

/-- In a run whose mounts are sound, the mounted paths are normal and distinct, a mount that fails leaves
the table, and an unmount that succeeds removes the one entry with the full path. -/
theorem mount_table (hr : (mountTable.restrict Op.Sound).Reachable table) : MountContract table := by
  have ht := reachable_table hr
  refine ⟨ht.normal, ht.distinct, fun host call table' e h => ?_, fun host specialfile table' habs h => ?_⟩
  · rcases dfs_mount_cases host call ht.whole with
      ⟨e', he⟩ | ⟨fullpath, dev_id, ops, pre, post, -, -, -, -, heq⟩
    · rw [he] at h
      exact (congrArg Prod.fst h).symm
    · rw [heq] at h
      cases congrArg Prod.snd h
  · rcases ht.unmount h with ⟨-, e, he⟩ | ⟨fullpath, pre, fs, post, hpath, rfl, hfs, heq⟩
    · cases he
    · obtain ⟨names, hnames, rfl⟩ := fullpath_place habs hpath
      refine ⟨names, pre.length, hnames, ht.onlyAt hfs, ?_⟩
      rw [set_cut]
      exact congrArg Prod.fst heq

/-- A file system and a host that refuse nothing. -/
def willingHost : Host :=
  ⟨['/'], [some ⟨['e', 'l', 'm'], true, true⟩], fun _ => none, true, fun _ => true, fun _ => true,
    fun _ => true, fun _ => true⟩

/-- The root and a directory below it, under a long spelling. -/
theorem mount_table_two : MountContract
    [⟨none, some ['/'], some ⟨['e', 'l', 'm'], true, true⟩⟩,
      ⟨none, some ['/', 'b'], some ⟨['e', 'l', 'm'], true, true⟩⟩] := by
  have hstart : (mountTable.restrict Op.Sound).Reachable (List.replicate DFS_FILESYSTEMS_MAX .cleared) :=
    Machine.Reachable.start rfl
  have hroot : (mountTable.restrict Op.Sound).Reachable
      [⟨none, some ['/'], some ⟨['e', 'l', 'm'], true, true⟩⟩, .cleared] := by
    have hstep : next (List.replicate DFS_FILESYSTEMS_MAX .cleared)
        (.mount willingHost ⟨none, ['/'], ['e', 'l', 'm']⟩) = some _ := rfl
    refine hstart.next ⟨?_, hstep.trans (by decide +kernel)⟩
    rintro names hnames - -
    obtain rfl : [[]] = names := Option.some.inj ((by decide +kernel : some [[]] = place _).trans hnames)
    exact ⟨Or.inr (by simp), by decide⟩
  have hstep : next [⟨none, some ['/'], some ⟨['e', 'l', 'm'], true, true⟩⟩, .cleared]
      (.mount willingHost ⟨none, ['/', 'a', '/', '.', '.', '/', '/', 'b'], ['e', 'l', 'm']⟩) =
      some _ := rfl
  refine mount_table (hroot.next ⟨?_, hstep.trans (by decide +kernel)⟩)
  rintro names hnames - -
  obtain rfl : [['b'], []] = names :=
    Option.some.inj ((by decide +kernel : some [['b'], []] = place _).trans hnames)
  exact ⟨Or.inr (by simp), by decide⟩

/-- The root is mounted under two spellings. -/
theorem mount_table_fails : ¬∀ table, mountTable.Reachable table → MountContract table := by
  intro h
  have hw : Machine.runs next (List.replicate DFS_FILESYSTEMS_MAX .cleared)
      [.mount willingHost ⟨none, ['/'], ['e', 'l', 'm']⟩,
        .mount willingHost ⟨none, ['/', '/'], ['e', 'l', 'm']⟩] =
      some [⟨none, some ['/'], some ⟨['e', 'l', 'm'], true, true⟩⟩,
        ⟨none, some ['/'], some ⟨['e', 'l', 'm'], true, true⟩⟩] := by decide +kernel
  have hr : mountTable.Reachable _ := (Machine.Reachable.start rfl).runs (fun _ _ _ h => h) hw
  exact absurd (h _ hr).distinct (by decide)

end Runs

end Ab32Vg1.Dfs
