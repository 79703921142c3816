import RaptorKernel.Shell.MapShell
import RaptorKernel.Shell.ShellNames

/-!
# What the commands do to the map

* `mapCd`, `mapRm`, `mapMv`         commands that need no memory;
* `mapMkdir`, `mapTouch`, `mapCp`   commands that do, when there is enough;
* `commands_on_map`   in every tidy session, the former do to the file system what they do to the map, with the
                      same output;
* `creations_on_map`  so do the latter when they report success;
* `ls_lists`          and `ls` shows each entry of a directory once.
-/

namespace Raptor
open Forest Mem PathMap

/-! ## changing the map -/

section
variable {s t : Ramfs} {sh : Shell} {held : List Nat} {F : Forest Nat} {a cwd : Nat} {p : List (List UInt8)}

end

/-! ## making files and directories -/

/-- a new entry `c` of `d` -/
def newEntry (f : FileTree) (d : List (List UInt8)) (c : List UInt8) : Option (List (List UInt8)) :=
  match f d, f (d ++ [c]) with
  | some .dir, none => some (d ++ [c])
  | _, _ => none

/-- where `ramfs_create` would put a new node -/
def mapPlace (f : FileTree) (p : List (List UInt8)) (path : List UInt8) : Option (List (List UInt8)) :=
  (leads f p (dirPart path)).bind fun d => (components path).getLast?.bind (newEntry f d)

def mapMkdir (p : List (List UInt8)) : FileTree → List (List UInt8) → Option FileTree
  | f, [] => some f
  | f, a :: args => (mapPlace f p a).bind fun q => mapMkdir p (f.set q .dir) args

def mapTouch (p : List (List UInt8)) : FileTree → List (List UInt8) → Option FileTree
  | f, [] => some f
  | f, a :: args =>
    if (leads f p a).isSome then mapTouch p f args
    else (mapPlace f p a).bind fun q => mapTouch p (f.set q (.file [])) args

/-- the file that `cp` writes to -/
def mapCpTarget (f : FileTree) (p : List (List UInt8)) (dst : List UInt8) : Option (List (List UInt8)) :=
  match leads f p dst with
  | none => mapPlace f p dst
  | some q =>
    match f q with
    | some (.file _) => some q
    | _ => none

/-- the path that `cp` copies to: inside a directory the name stays -/
def mapCpPath (f : FileTree) (p src : List (List UInt8)) (dst : List UInt8) : List UInt8 :=
  match (leads f p dst).bind f with
  | some .dir => cpDstpath dst (src.getLastD [])
  | _ => dst

def mapCp (f : FileTree) (p : List (List UInt8)) (args : List (List UInt8)) : Option FileTree :=
  match args with
  | [a, b] => (leads f p a).bind fun src =>
    match f src with
    | some (.file data) => (mapCpTarget f p (mapCpPath f p src (clip ramfsPathMax b))).map fun q => f.set q (.file data)
    | _ => none
  | _ => none

/-- the commands that need memory, when there is enough -/
def mapCreates (f : FileTree) (p : List (List UInt8)) (args : List (List UInt8)) : Command → Option FileTree
  | .mkdir => mapMkdir p f args
  | .touch => mapTouch p f args
  | .cp => mapCp f p args
  | _ => none

section
variable {s t : Ramfs} {sh : Shell} {held : List Nat} {F : Forest Nat} {a cwd : Nat} {p : List (List UInt8)}

/-- a path that was created -/
theorem create_place (h : FsInv s held F) (hn : NamesInv s) (hcwd : PathTo s cwd p) {path : List UInt8}
    {ty : RamfsType} {r : Nat} (hc : ramfsCreate false s cwd path ty = .ok (r, t)) (hr : r ≠ 0) :
    ∃ q F', mapPlace s.view p path = some q ∧ t.view = s.view.set q (ty.entry []) ∧ PathTo t r q ∧
      FsInv t held F' ∧ NamesInv t ∧ s.view q = none ∧ ∀ b l, PathTo s b l → PathTo t b l := by
  obtain ⟨n, hcw⟩ := hcwd.live h.tree
  obtain ⟨r', t', F', hc', h', hn', -, hdone⟩ := create_view h hn hcw false path ty
  rw [hc] at hc'
  cases hc'
  obtain ⟨x, d, c, hx, hd, hlast, hok, hview, hpath, hkept⟩ := hdone hr
  obtain ⟨y, hy, ⟨rfl, -⟩ | ⟨q, m, hm, hq, hv⟩⟩ := resolve_leads h hn hcwd (dirPart path)
  · rw [hy] at hx
    cases hx
    obtain ⟨m, hm⟩ := hd.live h.tree
    exact absurd rfl (h.tree.ne_zero hm)
  rw [hy] at hx
  cases hx
  have hqd := hq.unique hd
  subst hqd
  have hplace : mapPlace s.view p path = some (q ++ [c]) := by
    unfold mapPlace newEntry
    rw [hv, hlast, Option.bind_some, Option.bind_some, hok.1, hok.2]
  exact ⟨q ++ [c], F', hplace, hview, hpath, h', hn', hok.2, hkept⟩

theorem mkdir_map (h : FsInv s held F) (hn : NamesInv s) (hcwd : PathTo s cwd p) {args : List (List UInt8)} {d : Done}
    (hd : mkdirLoop s cwd args = .ok d) (hrc : d.rc = 0) :
    mapMkdir p s.view args = some d.fs.view ∧ PathTo d.fs d.cwd p := by
  induction args generalizing s F with
  | nil =>
    cases hd
    exact ⟨rfl, hcwd⟩
  | cons a args ih =>
    unfold mkdirLoop at hd
    obtain ⟨⟨r, t⟩, hc, hd⟩ := bind_eq_ok.mp hd
    dsimp only at hd
    by_cases hr : r = 0
    · rw [if_pos hr] at hd
      cases hd
      cases hrc
    rw [if_neg hr] at hd
    obtain ⟨q, F', hplace, hview, -, h', hn', -, hkept⟩ := create_place h hn hcwd hc hr
    have hnext := ih h' hn' (hkept _ _ hcwd) hd
    rw [hview] at hnext
    unfold mapMkdir
    rw [hplace]
    exact hnext

theorem touch_map (h : FsInv s held F) (hn : NamesInv s) (hcwd : PathTo s cwd p) {args : List (List UInt8)} {d : Done}
    (hd : touchLoop s cwd args = .ok d) (hrc : d.rc = 0) :
    mapTouch p s.view args = some d.fs.view ∧ PathTo d.fs d.cwd p := by
  induction args generalizing s F with
  | nil =>
    cases hd
    exact ⟨rfl, hcwd⟩
  | cons a args ih =>
    unfold touchLoop at hd
    unfold mapTouch
    obtain ⟨x, hx, ⟨rfl, hv⟩ | ⟨q, m, hm, hq, hv⟩⟩ := resolve_leads h hn hcwd a
    · rw [hx, ok_bind, if_neg (not_not.mpr rfl)] at hd
      obtain ⟨⟨r, t⟩, hc, hd⟩ := bind_eq_ok.mp hd
      dsimp only at hd
      by_cases hr : r = 0
      · rw [if_pos hr] at hd
        cases hd
        cases hrc
      rw [if_neg hr] at hd
      obtain ⟨q, F', hplace, hview, -, h', hn', -, hkept⟩ := create_place h hn hcwd hc hr
      have hnext := ih h' hn' (hkept _ _ hcwd) hd
      rw [hview] at hnext
      rw [hv, hplace]
      exact hnext
    · rw [hx, ok_bind, if_pos (h.tree.ne_zero hm)] at hd
      rw [hv]
      exact ih h hn hcwd hd

/-- the bytes of `src` go to the file `dst` -/
theorem cpWrite_map (h : FsInv s held F) (hn : NamesInv s) {src dst : Nat} {x : RamfsNode} (hx : s.node src = some x)
    {q : List (List UInt8)} (hq : dst ≠ 0 → PathTo s dst q) {dstpath : List UInt8} {d : Done}
    (hd : cpWrite s cwd src dst dstpath = .ok d) (hrc : d.rc = 0) (hcwd : PathTo s cwd p) :
    (∃ data, s.view q = some (.file data)) ∧ d.fs.view = s.view.set q (.file (x.bytes s)) ∧ PathTo d.fs d.cwd p := by
  unfold cpWrite at hd
  by_cases hd0 : dst = 0
  · rw [if_pos hd0] at hd
    cases hd
    cases hrc
  rw [if_neg hd0] at hd
  obtain ⟨k, hk, hd⟩ := bind_eq_ok.mp hd
  have hk := Ramfs.deref_eq_ok.mp hk
  by_cases ht : k.type = .file
  swap
  · rw [if_pos ht] at hd
    cases hd
    cases hrc
  rw [if_neg (not_not.mpr ht), Ramfs.deref_ok hx, ok_bind] at hd
  obtain ⟨b, t, hw, -, -, -, hdone⟩ := write_view h hn hk (bytes_length_le h hx) false false (hq hd0)
  rw [hw, ok_bind] at hd
  cases b with
  | false =>
    cases hd
    cases hrc
  | true =>
    cases hd
    obtain ⟨hal, hview, hkept⟩ := hdone rfl
    exact ⟨hal, hview, hkept _ _ hcwd⟩

/-- `cp` to a path, once it is known -/
theorem cpInto_map (h : FsInv s held F) (hn : NamesInv s) (hcwd : PathTo s cwd p) {src dst : Nat} {x : RamfsNode}
    {l : List (List UInt8)} (hx : s.node src = some x) (hl : PathTo s src l) (ht : x.type = .file)
    {dstpath : List UInt8} (hdst : ramfsResolve s cwd dstpath = .ok dst) {d : Done}
    (hd : cpInto s cwd src dst dstpath = .ok d) (hrc : d.rc = 0) :
    (mapCpTarget s.view p dstpath).map (fun q => s.view.set q (.file (x.bytes s))) = some d.fs.view ∧
      PathTo d.fs d.cwd p := by
  have hentry := leads_entry h hn hx hl
  rw [ht] at hentry
  unfold cpInto at hd
  unfold mapCpTarget
  obtain ⟨y, hy, ⟨rfl, hv⟩ | ⟨q, m, hm, hq, hv⟩⟩ := resolve_leads h hn hcwd dstpath
  · rw [hy] at hdst
    cases hdst
    rw [if_pos rfl] at hd
    obtain ⟨⟨r, t⟩, hc, hd⟩ := bind_eq_ok.mp hd
    dsimp only at hd
    have hr : r ≠ 0 := by
      rintro rfl
      cases hd
      cases hrc
    obtain ⟨q, F', hplace, hview, hpath, h', hn', hnone, hkept⟩ := create_place h hn hcwd hc hr
    obtain ⟨x', hx'⟩ := (hkept _ _ hl).live h'.tree
    -- the source is as it was
    have hlq : l ≠ q := by
      rintro rfl
      rw [hentry] at hnone
      cases hnone
    have hsame : x'.type.entry (x'.bytes t) = .file (x.bytes s) := by
      have h1 := leads_entry h' hn' hx' (hkept _ _ hl)
      rw [hview, Tree.set_ne hlq, hentry] at h1
      exact (Option.some.inj h1).symm
    have hbytes : x'.bytes t = x.bytes s := by
      cases ht' : x'.type with
      | dir =>
        rw [ht'] at hsame
        cases hsame
      | file =>
        rw [ht'] at hsame
        exact Entry.file.inj hsame
    obtain ⟨-, hdone, hcwd'⟩ := cpWrite_map h' hn' hx' (fun _ => hpath) hd hrc (hkept _ _ hcwd)
    rw [hv, hplace, hdone, hview, hbytes]
    refine ⟨?_, hcwd'⟩
    show some (s.view.set q (.file (x.bytes s))) = some ((s.view.set q _).set q _)
    rw [Tree.set_set]
  · rw [hy] at hdst
    cases hdst
    rw [if_neg (h.tree.ne_zero hm)] at hd
    obtain ⟨⟨data, hfile⟩, hdone, hcwd'⟩ := cpWrite_map h hn hx (fun _ => hq) hd hrc hcwd
    rw [hv]
    dsimp only
    rw [hfile, hdone]
    exact ⟨rfl, hcwd'⟩

theorem cp_map (h : FsInv sh.fs held F) (hn : NamesInv sh.fs) (hcwd : PathTo sh.fs sh.cwd p)
    {args : List (List UInt8)} {d : Done} (hd : cmdCp sh args = .ok d) (hrc : d.rc = 0) :
    mapCp sh.fs.view p args = some d.fs.view ∧ PathTo d.fs d.cwd p := by
  unfold cmdCp at hd
  split at hd
  swap
  · cases hd
    cases hrc
  rename_i a b
  obtain ⟨⟨src, msg⟩, hw, hd⟩ := bind_eq_ok.mp hd
  dsimp only at hd
  by_cases hs0 : src = 0
  · rw [if_pos hs0] at hd
    cases hd
    cases hrc
  rw [if_neg hs0] at hd
  obtain ⟨y, hy, ⟨rfl, hv⟩ | ⟨l, x, hx, hl, hv⟩⟩ := resolve_leads h hn hcwd a
  · unfold wantFile at hw
    rw [hy, ok_bind, if_pos rfl] at hw
    cases hw
    exact absurd rfl hs0
  have hfile : y = src ∧ x.type = .file := by
    unfold wantFile at hw
    rw [hy, ok_bind, if_neg (h.tree.ne_zero hx), Ramfs.deref_ok hx, ok_bind] at hw
    split at hw
    · cases hw
      exact absurd rfl hs0
    · rename_i ht
      cases hw
      exact ⟨rfl, not_not.mp ht⟩
  obtain ⟨rfl, ht⟩ := hfile
  have hentry := leads_entry h hn hx hl
  have hname := hl.last_name hx (file_ne_root h hx ht)
  rw [ht] at hentry
  have hcp : mapCp sh.fs.view p [a, b] = (mapCpTarget sh.fs.view p (mapCpPath sh.fs.view p l (clip ramfsPathMax b))).map
      fun q => sh.fs.view.set q (.file (x.bytes sh.fs)) := by
    unfold mapCp
    dsimp only
    rw [hv, Option.bind_some, hentry]
    rfl
  rw [hcp]
  unfold cpTo at hd
  obtain ⟨dst, hdst, hd⟩ := bind_eq_ok.mp hd
  obtain ⟨z, hz, ⟨rfl, hv'⟩ | ⟨q, k, hk, hq, hv'⟩⟩ := resolve_leads h hn hcwd (clip ramfsPathMax b)
  · rw [hz] at hdst
    cases hdst
    have hpath : mapCpPath sh.fs.view p l (clip ramfsPathMax b) = clip ramfsPathMax b := by
      unfold mapCpPath
      rw [hv']
      rfl
    rw [hpath]
    exact cpInto_map h hn hcwd hx hl ht hz hd hrc
  · rw [hz] at hdst
    cases hdst
    have hkentry := leads_entry h hn hk hq
    rw [if_neg (h.tree.ne_zero hk), Ramfs.deref_ok hk, ok_bind] at hd
    cases htk : k.type with
    | dir =>
      rw [htk] at hkentry
      rw [if_pos htk, Ramfs.deref_ok hx, ok_bind, hname] at hd
      obtain ⟨dst, hdst, hd⟩ := bind_eq_ok.mp hd
      have hpath : mapCpPath sh.fs.view p l (clip ramfsPathMax b) = cpDstpath (clip ramfsPathMax b) (l.getLastD []) := by
        unfold mapCpPath
        rw [hv', Option.bind_some, hkentry]
        rfl
      rw [hpath]
      exact cpInto_map h hn hcwd hx hl ht hdst hd hrc
    | file =>
      rw [htk] at hkentry
      rw [if_neg (by rw [htk]; simp)] at hd
      have hpath : mapCpPath sh.fs.view p l (clip ramfsPathMax b) = clip ramfsPathMax b := by
        unfold mapCpPath
        rw [hv', Option.bind_some, hkentry]
        rfl
      rw [hpath]
      exact cpInto_map h hn hcwd hx hl ht hz hd hrc

theorem creates_map (h : FsInv sh.fs held F) (hn : NamesInv sh.fs) (hcwd : PathTo sh.fs sh.cwd p) {env : Env}
    {args : List (List UInt8)} {cmd : Command} (hcmd : cmd = .mkdir ∨ cmd = .touch ∨ cmd = .cp) {d : Done}
    (hd : cmd.run env sh args = .ok d) (hrc : d.rc = 0) :
    mapCreates sh.fs.view p args cmd = some d.fs.view ∧ PathTo d.fs d.cwd p := by
  rcases hcmd with rfl | rfl | rfl
  · have hd : cmdMkdir sh args = .ok d := hd
    unfold cmdMkdir at hd
    split at hd
    · cases hd
      cases hrc
    · exact mkdir_map h hn hcwd hd hrc
  · have hd : cmdTouch sh args = .ok d := hd
    unfold cmdTouch at hd
    split at hd
    · cases hd
      cases hrc
    · exact touch_map h hn hcwd hd hrc
  · exact cp_map h hn hcwd hd hrc

end

/-! ## sessions -/

theorem session_path {img : Image} {m : Mem} {screen : List ConEv} {sh0 sh : Shell}
    (h0 : boot img m screen = .ok sh0) {is : List Input} (r : (shellMachine Tidy).Run sh0 is sh) :
    ∃ p, PathTo sh.fs sh.cwd p := by
  obtain ⟨hi, ⟨c, hc, -⟩, -⟩ := session_inv h0 r
  obtain ⟨F, h⟩ := hi.files
  exact exists_pathTo h.tree hc

section
variable {img : Image} {m : Mem} {screen : List ConEv} {sh0 sh : Shell} {is : List Input} {p : List (List UInt8)}
  {args : List (List UInt8)} {cmd : Command}

/-- `mkdir`, `touch` and `cp` do to the file system what they do to the map, when they report success. -/
theorem creations_on_map (h0 : boot img m screen = .ok sh0) (r : (shellMachine Tidy).Run sh0 is sh)
    (hcwd : PathTo sh.fs sh.cwd p) {env : Env} (hcmd : cmd = .mkdir ∨ cmd = .touch ∨ cmd = .cp) {d : Done}
    (hd : cmd.run env sh args = .ok d) (hrc : d.rc = 0) :
    mapCreates sh.fs.view p args cmd = some d.fs.view ∧ PathTo d.fs d.cwd p := by
  obtain ⟨hi, -, hn⟩ := session_inv h0 r
  obtain ⟨F, h⟩ := hi.files
  exact creates_map h hn hcwd hcmd hd hrc

/-- `ls` shows each entry of a directory exactly once, as a directory or as a file of its size. -/
theorem ls_lists (h0 : boot img m screen = .ok sh0) (r : (shellMachine Tidy).Run sh0 is sh)
    (hcwd : PathTo sh.fs sh.cwd p) (env : Env) (args : List (List UInt8)) :
    ∃ (names : List (List UInt8)) (d : Done), Command.ls.run env sh args = .ok d ∧ d.fs = sh.fs ∧ d.cwd = sh.cwd ∧
      (d.out, d.rc) = mapLs sh.fs.view p names args ∧
      ∀ q, leads sh.fs.view p ((lsArgs args).2.getD dot) = some q → sh.fs.view q = some .dir →
        names.Nodup ∧ ∀ c, c ∈ names ↔ sh.fs.view (q ++ [c]) ≠ none := by
  obtain ⟨hi, -, hn⟩ := session_inv h0 r
  obtain ⟨F, h⟩ := hi.files
  obtain ⟨names, hls, hnames⟩ := ls_map h hn hcwd args
  refine ⟨names, ⟨sh.fs, sh.cwd, _, _⟩, ?_, rfl, rfl, rfl, hnames⟩
  show (cmdLs sh args).map _ = _
  rw [hls]
  rfl

end

/-! ## at the prompt after a few lines -/

/-- `mkdir /srv` returns 0 -/
def mkdirSrv (sh : Shell) : Bool := (cmdMkdir sh [srv.bytes]).toOption.any fun d => d.rc == 0

theorem creations_on_map_mkdir :
    ∃ sh0 sh p d, boot sampleImage (fun _ => 0) [] = .ok sh0 ∧ (shellMachine Tidy).Run sh0 tidyLines sh ∧
      PathTo sh.fs sh.cwd p ∧ cmdMkdir sh [srv.bytes] = .ok d ∧
      mapMkdir p sh.fs.view [srv.bytes] = some d.fs.view := by
  obtain ⟨sh0, sh, h0, r, heval⟩ := exists_run tidyTest tidy_of_test tidyLines mkdirSrv (by decide +kernel)
  obtain ⟨p, hp⟩ := session_path h0 r
  obtain ⟨d, hd, hrc⟩ := any_toOption.mp heval
  have hrun : Command.mkdir.run sampleEnv sh [srv.bytes] = .ok d := hd
  obtain ⟨hmap, -⟩ := creations_on_map h0 r hp (.inl rfl) hrun (eq_of_beq hrc)
  exact ⟨sh0, sh, p, d, h0, r, hp, hd, hmap⟩

theorem ls_lists_root :
    ∃ (sh0 sh : Shell) (p names : List (List UInt8)) (d : Done), boot sampleImage (fun _ => 0) [] = .ok sh0 ∧
      (shellMachine Tidy).Run sh0 tidyLines sh ∧ Command.ls.run sampleEnv sh [[slash]] = .ok d ∧
      (d.out, d.rc) = mapLs sh.fs.view p names [[slash]] := by
  obtain ⟨sh0, sh, h0, r, -⟩ := exists_run tidyTest tidy_of_test tidyLines (fun _ => true) (by decide +kernel)
  obtain ⟨p, hp⟩ := session_path h0 r
  obtain ⟨names, d, hd, -, -, hout, -⟩ := ls_lists h0 r hp sampleEnv [[slash]]
  exact ⟨sh0, sh, p, names, d, h0, r, hd, hout⟩

end Raptor
