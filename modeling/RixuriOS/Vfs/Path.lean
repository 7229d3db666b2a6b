import RixuriOS.Rixfs.Directory

/-!
# Path names

`vfs_normalize_path` and `split_parent` of `vfs/vfs.c`. A path is the list of the
bytes before the terminator of a C string. The callers pass buffers of
`RIX_VFS_PATH_MAX` bytes, and what does not fit is refused.
-/

namespace RixuriOS.Vfs

open ByteCodec Rixfs

def pathMax : Nat := 4096

def vfsNameMax : Nat := 255

def toCString (l : List Byte) : CString where
  bytes := cstr l
  nonzero _ hc := by simpa using List.mem_takeWhile_imp hc

def appendComponent (cap : Nat) (out c : List Byte) : Option (List Byte) :=
  if c = [] then some out
  else if out ≠ [] ∧ out.getLast? ≠ some slash then
    if cap ≤ out.length + 1 ∨ cap - (out.length + 1) ≤ c.length then none
    else some (out ++ slash :: c)
  else if cap - out.length ≤ c.length then none
  else some (out ++ c)

/-- What `..` leaves of the output, which starts with a slash: the last component
goes, and the slash before it stays. -/
def dropComponent (out : List Byte) : List Byte :=
  if out.length ≤ 1 then out
  else (if out.getLast? = some slash then out.dropLast else out).rdropWhile (· ≠ slash)

def enterComponent (cap : Nat) (out c : List Byte) : Option (List Byte) :=
  if c = [dot] then some out
  else if c = [dot, dot] then some (dropComponent out)
  else if vfsNameMax < c.length then none
  else appendComponent cap out c

/-- The loop of `vfs_normalize_path`: skip slashes, cut off a component, enter it. Every
round but the last moves the scanner, so that the length of the text is enough fuel. -/
def scanPath (cap : Nat) : Nat → List Byte → List Byte → Option (List Byte)
  | 0, p, out => if p.dropWhile (· = slash) = [] then some out else none
  | n + 1, p, out =>
    let p := p.dropWhile (· = slash)
    if p = [] then some out
    else
      (enterComponent cap out (p.takeWhile (· ≠ slash))).bind
        (scanPath cap n (p.dropWhile (· ≠ slash)))

/-- The path that `vfs_normalize_path` works on: a relative one is joined to the
working directory, if the process has one. That directory has fewer than 256 bytes,
so that only the rest of the path can be too long. -/
def joinCwd (cwd : Option (List Byte)) (input : List Byte) : Option (List Byte) :=
  if input.head? = some slash then some input
  else
    cwd.bind fun d =>
      let base := if d ≠ [] ∧ d.getLast? ≠ some slash then d ++ [slash] else d
      if input ≠ [] ∧ pathMax ≤ base.length + input.length then none else some (base ++ input)

/-- `vfs_normalize_path` into an output buffer of `cap` bytes. -/
def normalizeWithin (cap : Nat) (cwd : Option (List Byte)) (input : List Byte) :
    Option (List Byte) :=
  if cap < 2 then none
  else
    (joinCwd cwd input).bind fun p =>
      (scanPath cap p.length p [slash]).map fun out =>
        if 1 < out.length ∧ out.getLast? = some slash then out.dropLast else out

def normalizePath (cwd : Option (List Byte)) (input : List Byte) : Option (List Byte) :=
  normalizeWithin pathMax cwd input

/-- `split_parent`: the path of the directory, and the name in it. -/
def splitParent (cwd : Option (List Byte)) (path : List Byte) :
    Option (List Byte × List Byte) :=
  (normalizePath cwd path).bind fun norm =>
    let name := norm.rtakeWhile (· ≠ slash)
    let cut := norm.length - name.length
    if norm.length ≤ 1 ∨ name = [] ∨ vfsNameMax + 1 ≤ name.length then none
    else if cut = 1 then some ([slash], name)
    else if pathMax ≤ cut then none
    else some (norm.take (cut - 1), name)

end RixuriOS.Vfs
