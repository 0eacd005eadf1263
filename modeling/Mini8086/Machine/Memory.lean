import Mini8086.Width
import Std.Data.TreeMap

/-!
# Memory

`2 ^ 20` bytes, all zero at first.  An address counts modulo `2 ^ 20`, so that a block written past
the top goes on at address 0.

`Memory.read` is how memory is seen: every other operation is described by what a later `read`
finds.  Words are stored low byte first.  The cells that were ever written are kept in order of
their addresses, from which `Memory.runs` reads off the blocks of nonzero bytes.
-/

namespace Mini8086

/-- the place in memory that an address stands for -/
def cell (a : Address) : Nat := a % 0x100000

structure Memory where
  cells : Std.TreeMap Nat Byte

namespace Memory

/-- memory with nothing but zeros -/
def empty : Memory := ⟨∅⟩

def read (m : Memory) (a : Address) : Byte := m.cells.getD (cell a) 0

def write (m : Memory) (a : Address) (b : Byte) : Memory := ⟨m.cells.insert (cell a) b⟩

@[simp] theorem read_empty (a : Address) : empty.read a = 0 := by
  simp [empty, read]

theorem read_write (m : Memory) (a b : Address) (v : Byte) :
    (m.write a v).read b = if cell a = cell b then v else m.read b := by
  simp only [write, read, Std.TreeMap.getD_insert, Std.LawfulEqCmp.compare_eq_iff_eq]

/-! ## words -/

def readWord (m : Memory) (a : Address) : Word := m.read (a + 1) ++ m.read a

def writeWord (m : Memory) (a : Address) (v : Word) : Memory :=
  (m.write a (v.setWidth 8)).write (a + 1) (v.extractLsb' 8 8)

/-! ## data of any width -/

def fetch (m : Memory) (a : Address) : (w : Width) → BitVec w.bits
  | .byte => m.read a
  | .word => m.readWord a
  | .dword => m.readWord (a + 2) ++ m.readWord a

def store (m : Memory) (a : Address) : (w : Width) → BitVec w.bits → Memory
  | .byte, v => m.write a v
  | .word, v => m.writeWord a v
  | .dword, v => (m.writeWord a (v.setWidth 16)).writeWord (a + 2) (v.extractLsb' 16 16)

/-! ## blocks -/

/-- the bytes at consecutive addresses from `a`, one after the other -/
def load (m : Memory) (a : Address) : List Byte → Memory
  | [] => m
  | b :: bs => (m.write a b).load (a + 1) bs

@[simp] theorem load_nil (m : Memory) (a : Address) : m.load a [] = m := rfl
@[simp] theorem load_cons (m : Memory) (a : Address) (b : Byte) (bs : List Byte) :
    m.load a (b :: bs) = (m.write a b).load (a + 1) bs := rfl

/-- the `n` bytes from an address on -/
def bytes (m : Memory) (a : Address) (n : Nat) : List Byte :=
  (List.range n).map fun i => m.read (a + i)

@[simp] theorem length_bytes (m : Memory) (a : Address) (n : Nat) : (m.bytes a n).length = n := by
  simp [bytes]

/-- cells in ascending order gathered into blocks of neighbours -/
def blocks : List (Nat × Byte) → List (Nat × List Byte)
  | [] => []
  | (a, b) :: cs =>
    match blocks cs with
    | (a₂, bs) :: rest => if a₂ = a + 1 then (a, b :: bs) :: rest else (a, [b]) :: (a₂, bs) :: rest
    | [] => [(a, [b])]

/-- the maximal blocks of nonzero bytes, with their addresses -/
def runs (m : Memory) : List (Nat × List Byte) := blocks (m.cells.toList.filter fun c => c.2 ≠ 0)

end Memory

end Mini8086
