import Mathlib
import WeiOS.Fs.Syscall

/-!
# Writing to a File

`file_write` of `kern/file.c` for files that have an inode. A request is split into rounds of at most
`maxbytes` bytes; each round is a transaction of its own, reads the offset of the file under the lock of
the inode and moves it on.
-/

namespace WeiOS.Syscall

open WeiOS.Inode (BLKSIZE)
open WeiOS.Dir (ilock iunlock)

/-- `include/param.h`: the most blocks that one operation writes. -/
def MAXOPBLOCKS : Nat := 40

/-- `maxbytes` of `file_write`. -/
def maxbytes : Nat := (MAXOPBLOCKS - 4) / 2 * BLKSIZE

/-- `perop`: the bytes of the next round, when `total` of `nbytes` are written. -/
def perop (nbytes total : Nat) : Nat := min (nbytes - total) maxbytes

/-- The critical section of one round of `file_write`, between `ilock` and `iunlock`: it returns what
    `writei` returns. -/
def writeRound (f : Nat) (src : Nat → BitVec 8) (total n : Nat) : SysM Int := do
  match ((← get).files f).inode with
  | none => throw (.fs .wild)
  | some i => do
    let _ ← onKern (ilock i)
    let wrbytes ← onKern (Dir.writei i (fun k => src (total + k)) ((← get).files f).offset n)
    let v := (← get).files f
    if 0 < wrbytes then setFile f { v with offset := (v.offset + wrbytes.toNat) % 2 ^ 32 }
    let _ ← onKern (iunlock i)
    pure wrbytes

/-- The checks of `file_write`: the file can be written to. A pipe has its own code. -/
def writable (v : File) : Bool :=
  v.type != FS_NONE && (v.flag &&& (O_WRONLY ||| O_RDWR)) != 0

end WeiOS.Syscall
