import Xv6.Fs.Inode

/-!
# Dir — directories and path names

The last layers of `kernel/fs.c`, with the string functions of `kernel/string.c` that they use.
-/

namespace Xv6.Fs

open Lib Prog

/-! ## Names -/

/-- `strncmp`, from offset `j` on with `n` characters left. -/
def strncmp (p q : Name) : Nat → Nat → Int
  | 0, _ => 0
  | n + 1, j =>
    if p j ≠ 0 ∧ p j = q j then strncmp p q n (j + 1) else (p j).toNat - (q j).toNat

def namecmp (s t : Name) : Int :=
  strncmp s t DIRSIZ 0

/-- `strncpy` copies up to the first NUL and fills the rest with zeros. -/
def strncpy (t : Name) : Name := fun j =>
  if (List.range j).all fun i => t i != 0 then t j else 0

/-- A string literal as a name. -/
def Name.ofList (l : List UInt8) : Name :=
  fun j => l.getD j 0

def slash : UInt8 := 47

/-- `"."` -/
def dot : List UInt8 := [46]

/-- `".."` -/
def dotdot : List UInt8 := [46, 46]

/-! ## Directories -/

variable (sb : Superblock)

/-- `readi` of the `struct dirent` at `off`; the error is the caller's panic. -/
def readDirent (q : Ip) (off : Nat) (e : Panic) : M Dirent := do
  let r ← readi sb q (fun _ => true) off DESIZE
  if r.1 = DESIZE then
    pure (.ofBytes fun j => r.2.getD j 0)
  else
    halt e

/-- The loop of `dirlookup`; it returns the entry's inode and offset. -/
def dirlookupFrom (q : Ip) (name : Name) : Nat → Nat → M (Option (Ip × Nat))
  | 0, _ => pure none
  | n + 1, off => do
    let dp ← gets (·.itable q)
    if off < dp.copy.size then do
      let de ← readDirent sb q off .dirlookupRead
      if de.inum = 0 then
        dirlookupFrom q name n (off + DESIZE)
      else if namecmp name de.name = 0 then do
        let ip ← iget de.inum
        pure (some (ip, off))
      else
        dirlookupFrom q name n (off + DESIZE)
    else
      pure none

def dirlookup (q : Ip) (name : Name) : M (Option (Ip × Nat)) := do
  let dp ← gets (·.itable q)
  if dp.copy.type = .dir then
    dirlookupFrom sb q name dp.copy.size 0
  else
    halt .dirlookupNotDir

/-- The loop of `dirlink` that looks for an empty entry. -/
def dirlinkFrom (q : Ip) : Nat → Nat → M Nat
  | 0, off => pure off
  | n + 1, off => do
    let dp ← gets (·.itable q)
    if off < dp.copy.size then do
      let de ← readDirent sb q off .dirlinkRead
      if de.inum = 0 then pure off else dirlinkFrom q n (off + DESIZE)
    else
      pure off

/-- `writei` of a `struct dirent` at `off`. -/
def writeDirent (q : Ip) (off : Nat) (de : Dirent) : M Int :=
  writei sb q (fun j => some (de.bytes j)) off DESIZE

/-- Whether `dirlink` succeeds. -/
def dirlink (q : Ip) (name : Name) (inum : Nat) : M Bool := do
  let found ← dirlookup sb q name
  match found with
  | some (ip, _) => do
    iput sb ip
    pure false
  | none => do
    let dp ← gets (·.itable q)
    let off ← dirlinkFrom sb q dp.copy.size 0
    let r ← writeDirent sb q off { inum := inum, name := strncpy name }
    pure (decide (r = DESIZE))

/-! ## Paths -/

/-- The next element of a path, copied over the buffer `name`, and the rest of the path. -/
def skipelem (path : List UInt8) (name : Name) : Option (List UInt8 × Name) :=
  let s := path.dropWhile (· = slash)
  if s = [] then
    none
  else
    let elem := s.takeWhile (· ≠ slash)
    let rest := (s.dropWhile (· ≠ slash)).dropWhile (· = slash)
    some (rest, fun j =>
      if j < elem.length then elem.getD j 0 else if j = elem.length then 0 else name j)

/-- The loop of `namex`; the path gets shorter with each element. -/
def namexFrom (nameiparent : Bool) : Nat → Ip → List UInt8 → Name → M (Option (Ip × Name))
  | 0, ip, _, name => namexEnd ip name
  | n + 1, ip, path, name =>
    match skipelem path name with
    | none => namexEnd ip name
    | some (rest, name) => do
      ilock sb ip
      let i ← gets (·.itable ip)
      if i.copy.type ≠ .dir then do
        iunlockput sb ip
        pure none
      else if nameiparent ∧ rest = [] then do
        iunlock sb ip
        pure (some (ip, name))
      else do
        let next ← dirlookup sb ip name
        match next with
        | none => do
          iunlockput sb ip
          pure none
        | some (next, _) => do
          iunlockput sb ip
          namexFrom nameiparent n next rest name
where
  /-- After the last element. -/
  namexEnd (ip : Ip) (name : Name) : M (Option (Ip × Name)) :=
    if nameiparent then do
      iput sb ip
      pure none
    else
      pure (some (ip, name))

/-- `namex` for process `p`; the buffer `name` is not initialised by the callers. -/
def namex (p : Slot) (path : List UInt8) (nameiparent : Bool) (name : Name) :
    M (Option (Ip × Name)) := do
  let cwd ← gets fun s => (s.proc p).cwd
  if path.head? = some slash then do
    let ip ← iget ROOTINO
    namexFrom sb nameiparent path.length ip path name
  else
    match cwd with
    | none => halt .kerneltrap
    | some cwd => do
      let ip ← idup cwd
      namexFrom sb nameiparent path.length ip path name

def namei (p : Slot) (path : List UInt8) : M (Option Ip) := do
  let r ← namex sb p path false fun _ => 0
  pure (r.map Prod.fst)

def nameiparent (p : Slot) (path : List UInt8) : M (Option (Ip × Name)) :=
  namex sb p path true fun _ => 0

end Xv6.Fs
