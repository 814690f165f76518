import Xv6.Lib.Bytes

/-!
# Sizes and limits

The constants of `param.h`, `fs.h`, `riscv.h`, `memlayout.h` and `fcntl.h` that the code is written
against.
-/

namespace Xv6

open Stateful

/-- Device number of the file system root disk. -/
abbrev ROOTDEV : ℕ := 1

/-- The most blocks any file system operation writes. -/
abbrev MAXOPBLOCKS : ℕ := 10

/-- The most data blocks in the on-disk log. -/
abbrev LOGSIZE : ℕ := MAXOPBLOCKS * 3

/-- Size of the disk block cache. -/
abbrev NBUF : ℕ := MAXOPBLOCKS * 3

/-- Block size in bytes. -/
abbrev BSIZE : ℕ := 1024

/-- Maximum number of active inodes. -/
abbrev NINODE : ℕ := 50

instance : NeZero NINODE := ⟨by decide⟩

/-- Direct block addresses of an inode. -/
abbrev NDIRECT : ℕ := 12

/-- Block addresses in an indirect block. -/
abbrev NINDIRECT : ℕ := 256

/-- The most blocks of a file. -/
abbrev MAXFILE : ℕ := NDIRECT + NINDIRECT

/-- Size of an on-disk inode in bytes. -/
abbrev DINODESIZE : ℕ := 64

/-- Inodes per block. -/
abbrev IPB : ℕ := 16

/-- Bitmap bits per block. -/
abbrev BPB : ℕ := 8192

/-- The contents of a disk block. -/
abbrev Block := Bytes BSIZE

/-- Maximum number of processes. -/
abbrev NPROC : ℕ := 64

/-- Open files per process. -/
abbrev NOFILE : ℕ := 16

/-- Open files per system. -/
abbrev NFILE : ℕ := 100

/-- Maximum major device number. -/
abbrev NDEV : ℕ := 10

/-- Mapped regions per process. -/
abbrev VMAMAX : ℕ := 16

/-- The most arguments of `exec`. -/
abbrev MAXARG : ℕ := 32

/-- Bytes per page. -/
abbrev PGSIZE : ℕ := 4096

/-- Entries of a page-table page. -/
abbrev NPTE : ℕ := 512

/-- One beyond the highest possible virtual address. -/
abbrev MAXVA : ℕ := 2 ^ 38

/-- The trampoline page is at the highest address of every process. -/
abbrev TRAMPOLINE : ℕ := MAXVA - PGSIZE

/-- The trapframe page is below it. -/
abbrev TRAPFRAME : ℕ := TRAMPOLINE - PGSIZE

/-- The end of the memory the kernel uses. -/
abbrev PHYSTOP : ℕ := 0x80000000 + 128 * 1024 * 1024

end Xv6
