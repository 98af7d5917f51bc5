import Xv6.Fs.Dir

/-! # Making an image

    `mkfs.c`: the image file is an array of sectors that `wsect` and `rsect` write and read, and
    blocks and inodes are taken one after the other. The host stores words in little-endian order,
    so `xint` and `xshort` only cut a value off. A call that fails ends the program.
-/

namespace Xv6.Mkfs

open ByteMem Fs Program

/-! ## Layout -/

abbrev NINODES : Nat := 200

def nbitmap : Nat := FSSIZE / (BSIZE * 8) + 1
def ninodeblocks : Nat := NINODES / IPB + 1
def nlog : Nat := LOGSIZE

/-- Number of meta blocks. -/
def nmeta : Nat := 2 + nlog + ninodeblocks + nbitmap

def nblocks : Nat := FSSIZE - nmeta

def sb : Superblock where
  size       := FSSIZE
  nblocks    := nblocks
  ninodes    := NINODES
  nlog       := nlog
  logstart   := 2
  inodestart := 2 + nlog
  bmapstart  := 2 + nlog + ninodeblocks

/-- The bytes of the super block, at the start of a block of zeros. -/
def sbBlock (sb : Superblock) : Block :=
  .ofBytes (wordsOf fun k => [sb.size, sb.nblocks, sb.ninodes, sb.nlog, sb.logstart, sb.inodestart,
    sb.bmapstart].getD k 0)

/-! ## Sectors -/

/-- The image file and the two counters. -/
structure Image where
  blocks    : Nat → Block
  sectors   : Nat
  freeinode : Nat
  freeblock : Nat

abbrev Mk := StateT Image (Except String)

/-- Where `lseek(fsfd, sec * BSIZE, 0)` leads to. -/
def sector (sec : Nat) : Nat := u32 (sec * BSIZE) / BSIZE

def Image.write (s : Image) (sec : Nat) (d : Block) : Image :=
  { s with blocks := Function.update s.blocks (sector sec) d
           sectors := max s.sectors (sector sec + 1) }

def wsect (sec : Nat) (d : Block) : Mk Unit := modify (·.write sec d)

def rsect (sec : Nat) : Mk Block := do
  let s ← get
  if sector sec < s.sectors then return s.blocks (sector sec) else throw "read"

/-! ## Inodes and blocks -/

def winode (inum : Nat) (din : Dinode) : Mk Unit := do
  let buf ← rsect (sb.IBLOCK inum)
  wsect (sb.IBLOCK inum) (setDinode buf inum din)

def rinode (inum : Nat) : Mk Dinode := do
  let buf ← rsect (sb.IBLOCK inum)
  return dinodeAt buf inum

/-- `freeinode++`. -/
def nextInode : Mk Nat := do
  let s ← get
  set { s with freeinode := s.freeinode + 1 }
  return s.freeinode

/-- `freeblock++`. -/
def nextBlock : Mk Nat := do
  let s ← get
  set { s with freeblock := s.freeblock + 1 }
  return s.freeblock

/-- The inode that `ialloc` writes. -/
def fresh (type : Nat) : Dinode := { Dinode.fresh type with nlink := 1 }

def ialloc (type : Nat) : Mk Nat := do
  let inum ← nextInode
  winode inum (fresh type)
  return inum

/-- The map that `balloc` writes. -/
def bitmap (used : Nat) : Block := (List.range used).foldl setBit (.fill 0)

def balloc (used : Nat) : Mk Unit := do
  if used < BSIZE * 8 then wsect sb.bmapstart (bitmap used)
  else throw "used < BSIZE*8"

/-- `din.addrs[k] = addr`. -/
def setAddr (din : Dinode) (k : Fin (NDIRECT + 1)) (addr : Nat) : Dinode :=
  { din with addrs := Function.update din.addrs k addr }

/-- `if(din.addrs[k] == 0) din.addrs[k] = freeblock++`. -/
def fillAddr (din : Dinode) (k : Fin (NDIRECT + 1)) : Mk Dinode := do
  if din.addrs k = 0 then
    let b ← nextBlock
    return setAddr din k b
  else return din

/-- Word `j` of the indirect block in `iappend`, filled if necessary. -/
def entryFor (din : Dinode) (j : Nat) : Mk (Nat × Dinode) := do
  let indirect ← rsect (din.addrs INDIRECT)
  if indirect.word j = 0 then
    let b ← nextBlock
    wsect (din.addrs INDIRECT) (indirect.setWord j b)
    return (b, din)
  else return (indirect.word j, din)

/-- The block for index `fbn` in `iappend`. -/
def blockFor (din : Dinode) (fbn : Nat) : Mk (Nat × Dinode) := do
  if h : fbn < NDIRECT then
    let din ← fillAddr din ⟨fbn, Nat.lt_succ_of_lt h⟩
    return (din.addrs ⟨fbn, Nat.lt_succ_of_lt h⟩, din)
  else
    let din ← fillAddr din INDIRECT
    entryFor din (fbn - NDIRECT)

/-- The loop of `iappend`; `src` is where `p` points to and `n` what is left.
    The values of `din` and `off` at the end. -/
def appendFrom (mem : Mem) : Nat → Dinode → Nat → Nat → Nat → Mk (Dinode × Nat)
  | 0, din, _, off, _ => return (din, off)
  | k + 1, din, src, off, n =>
      if 0 < n then
        let fbn := off / BSIZE
        if fbn < MAXFILE then do
          let (x, din) ← blockFor din fbn
          let n1 := min n ((fbn + 1) * BSIZE - off)
          let buf ← rsect x
          wsect x (.ofBytes (copy buf.bytes (off - fbn * BSIZE) mem src n1))
          appendFrom mem k din (src + n1) (off + n1) (n - n1)
        else throw "fbn < MAXFILE"
      else return (din, off)

def iappend (inum : Nat) (mem : Mem) (n : Nat) : Mk Unit := do
  let din ← rinode inum
  let (din, off) ← appendFrom mem n din 0 din.size n
  winode inum { din with size := off }

/-! ## `main` -/

/-- An argument, and what the calls of `read` deliver; `none` if the file cannot be opened. -/
structure Input where
  arg    : List UInt8
  chunks : Option (List (List UInt8))

/-- `'_'`. -/
abbrev UNDERSCORE : UInt8 := 95

/-- The name without a leading `_`. -/
def Input.name (f : Input) : List UInt8 :=
  if f.arg.head? = some UNDERSCORE then f.arg.tail else f.arg

/-- `"."` and `".."`. -/
def dot : List UInt8 := [46]
def dotdot : List UInt8 := [46, 46]

/-- `struct dirent` of zeros with number and name set. -/
def dirent (inum : Nat) (name : List UInt8) : Dirent :=
  ⟨inum % 2 ^ 16, strncpy (fun _ => 0) (memOf name) DIRSIZ 0⟩

def addEntry (rootino inum : Nat) (name : List UInt8) : Mk Unit :=
  iappend rootino (dirent inum name).bytes DIRENT

/-- The loop around `read`. -/
def appendAll (inum : Nat) : List (List UInt8) → Mk Unit
  | [] => return ()
  | buf :: bufs => do
      iappend inum (memOf buf) buf.length
      appendAll inum bufs

/-- One round of the loop over the arguments. -/
def addFile (rootino : Nat) (f : Input) : Mk Unit := do
  if SLASH ∈ f.arg then throw "index(argv[i], '/') == 0"
  else
    match f.chunks with
    | none => throw "open"
    | some chunks => do
        let inum ← ialloc T_FILE
        addEntry rootino inum f.name
        appendAll inum chunks

def addFiles (rootino : Nat) : List Input → Mk Unit
  | [] => return ()
  | f :: fs => do
      addFile rootino f
      addFiles rootino fs

/-- The loop that writes zeros. -/
def clear : List Nat → Mk Unit
  | [] => return ()
  | i :: is => do
      wsect i (.fill 0)
      clear is

/-- The size of the root directory is rounded up. -/
def fixRoot (rootino : Nat) : Mk Unit := do
  let din ← rinode rootino
  winode rootino { din with size := (din.size / BSIZE + 1) * BSIZE }

/-- `main`, from the empty image file on. -/
def main (files : List Input) : Mk Unit := do
  clear (List.range FSSIZE)
  wsect 1 (sbBlock sb)
  let rootino ← ialloc T_DIR
  if rootino = ROOTINO then
    addEntry rootino rootino dot
    addEntry rootino rootino dotdot
    addFiles rootino files
    fixRoot rootino
    let s ← get
    balloc s.freeblock
  else throw "rootino == ROOTINO"

/-- The start of the program, with `freeblock` set. -/
def start : Image := ⟨fun _ => .fill 0, 0, 1, nmeta⟩

/-- The image as the kernel sees it, outside of a transaction. -/
def Image.disk (s : Image) : Disk := ⟨s.blocks, [], 0, sb.nlog⟩

end Xv6.Mkfs
