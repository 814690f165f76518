import Xv6.Lib.Prog
import Xv6.Lib.Words
import Xv6.Param

/-!
# Physical memory and its allocator (`riscv.h`, `kalloc.c`)

Physical memory is a map from the addresses of pages to their contents.  The free list is kept as a
list; `kfree` also leaves its junk and the link in the page, as the code does.  Addresses are natural
numbers; where a sum can leave the 64 bits of the machine it is reduced (`add64`, `sub64`).
-/

namespace Xv6

open Stateful Function

/-! ### Numbers -/

/-- Unsigned 64-bit addition. -/
def add64 (a b : ℕ) : ℕ := (a + b) % 2 ^ 64

/-- Unsigned 64-bit subtraction. -/
def sub64 (a b : ℕ) : ℕ := (a + (2 ^ 64 - b)) % 2 ^ 64

/-- A signed 32-bit `int` converted to `uint64`. -/
def sext64 (x : BitVec 32) : ℕ := (x.signExtend 64).toNat

/-- Round an address down to a page boundary. -/
def pgRoundDown (a : ℕ) : ℕ := a / PGSIZE * PGSIZE

/-- Round an address up to a page boundary. -/
def pgRoundUp (sz : ℕ) : ℕ := add64 sz (PGSIZE - 1) / PGSIZE * PGSIZE

/-! ### Page-table entries -/

/-- Valid. -/
abbrev PTEV : BitVec 64 := 1#64

/-- Readable, writable, executable, and accessible to the user. -/
abbrev PTER : BitVec 64 := 2#64
abbrev PTEW : BitVec 64 := 4#64
abbrev PTEX : BitVec 64 := 8#64
abbrev PTEU : BitVec 64 := 16#64

/-- Does an entry have a flag? -/
def hasFlag (pte flag : BitVec 64) : Bool := pte &&& flag ≠ 0

/-- The flags of an entry. -/
def pteFlags (pte : BitVec 64) : BitVec 64 := pte &&& 0x3FF#64

/-- Shift a physical address to the right place for an entry. -/
def pa2pte (pa : ℕ) : BitVec 64 := (BitVec.ofNat 64 pa >>> 12) <<< 10

/-- The physical address in an entry. -/
def pte2pa (pte : BitVec 64) : ℕ := ((pte >>> 10) <<< 12).toNat

/-- The nine-bit index of a virtual address at a level of the page table. -/
def px (level va : ℕ) : Fin NPTE := ⟨va / 2 ^ (12 + 9 * level) % 512, Nat.mod_lt _ (by decide)⟩

/-! ### The allocator -/

instance : NeZero NPTE := ⟨by decide⟩

/-- The contents of a page: 512 words. -/
abbrev Page := Words NPTE

/-- Physical memory: the pages by their address, the free list, the end of the kernel (`end`) and the
page of the trampoline code. -/
structure Mem where
  page : ℕ → Page
  free : List ℕ
  kend : ℕ
  tramp : ℕ

namespace Mem

/-- Overwrite a page. -/
def setPage (m : Mem) (pa : ℕ) (pg : Page) : Mem := { m with page := update m.page pa pg }

/-- Overwrite an entry of a page-table page. -/
def setPte (m : Mem) (pa : ℕ) (i : Fin NPTE) (pte : BitVec 64) : Mem :=
  m.setPage pa (update (m.page pa) i pte)

/-- Copy bytes into a page. -/
def blit (m : Mem) (pa off : ℕ) (bytes : List Byte) : Mem := m.setPage pa ((m.page pa).blit off bytes)

end Mem

/-- Set all bytes of a page. Nothing is mapped at address 0 of the kernel. -/
def memset (pa : ℕ) (b : Byte) : Prog Mem Unit :=
  if pa = 0 then Prog.panic "kerneltrap" else Prog.modify fun m => m.setPage pa (Words.fill b)

/-- The address in the first word of a free page. -/
def linkOf : List ℕ → ℕ
  | [] => 0
  | r :: _ => r

/-- Free a page of physical memory. -/
def kfree (pa : ℕ) : Prog Mem Unit := do
  let m ← Prog.get
  if pa % PGSIZE ≠ 0 ∨ pa < m.kend ∨ PHYSTOP ≤ pa then
    Prog.panic "kfree"
  else
    -- fill with junk, then link into the list
    Prog.set { m.setPage pa (update (Words.fill 1) 0 (BitVec.ofNat 64 (linkOf m.free))) with
      free := pa :: m.free }

/-- Allocate a page of physical memory. Returns 0 if the memory cannot be allocated. -/
def kalloc : Prog Mem ℕ := do
  let m ← Prog.get
  match m.free with
  | [] => return 0
  | r :: rest =>
    Prog.set ({ m with free := rest }.setPage r (Words.fill 5))
    return r

end Xv6
