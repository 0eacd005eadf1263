import Mathlib.Data.List.DropRight
import Mini8086.Machine.Memory

/-!
# What memory remembers

Every call that changes memory stores bytes one after the other, or clears it.  A byte is then read
as it was last stored since memory was last cleared.  Addresses have 32 bits here and wrap around;
two of them stand for the same cell if they are the same modulo `2 ^ 20`.

* `Memory.read_storeAll`   a byte after any stores is the latest one in its cell;
* `Memory.after_eq`        a call stores its bytes and does nothing else;
* `Memory.history`         what is read after any calls.
-/

namespace Mini8086

/-! ## stores -/

/-- A byte stored at an address. -/
structure Stored where
  address : Address
  byte : Byte
  deriving DecidableEq, Repr

/-- the byte stored last in the cell of an address -/
def latest? (a : Address) (ss : List Stored) : Option Byte :=
  (ss.filter fun s => cell s.address = cell a).getLast?.map Stored.byte

@[simp] theorem latest?_append (a : Address) (ss ts : List Stored) :
    latest? a (ss ++ ts) = (latest? a ts).or (latest? a ss) := by
  unfold latest?
  rw [List.filter_append, List.getLast?_append]
  cases (ts.filter fun s => cell s.address = cell a).getLast? with
  | none => rfl
  | some s => rfl

theorem latest?_eq_none {a : Address} {ss : List Stored}
    (h : ∀ s ∈ ss, cell s.address ≠ cell a) : latest? a ss = none := by
  have hnone : (ss.filter fun s => cell s.address = cell a) = [] := by
    simpa using h
  rw [latest?, hnone]
  rfl

@[simp] theorem latest?_singleton (a : Address) (s : Stored) :
    latest? a [s] = if cell s.address = cell a then some s.byte else none := by
  unfold latest?
  rw [List.filter_singleton]
  by_cases h : cell s.address = cell a <;> simp [h]

namespace Memory
variable {a b : Address}

/-- bytes stored one after the other -/
def storeAll (m : Memory) (ss : List Stored) : Memory :=
  ss.foldl (fun m s => m.write s.address s.byte) m

@[simp] theorem storeAll_append (m : Memory) (ss ts : List Stored) :
    m.storeAll (ss ++ ts) = (m.storeAll ss).storeAll ts :=
  List.foldl_append

/-- A byte is as it was stored last, and as before if it was not stored. -/
theorem read_storeAll (m : Memory) (ss : List Stored) (a : Address) :
    (m.storeAll ss).read a = (latest? a ss).getD (m.read a) := by
  induction ss generalizing m with
  | nil => rfl
  | cons s ss ih =>
    show ((m.write s.address s.byte).storeAll ss).read a = (latest? a ([s] ++ ss)).getD (m.read a)
    rw [ih, read_write, latest?_append, latest?_singleton]
    cases latest? a ss with
    | some b => rfl
    | none => split <;> rfl

/-- Only the cell of an address matters. -/
theorem write_congr (h : cell a = cell b) (m : Memory) (v : Byte) : m.write a v = m.write b v := by
  rw [write, write, h]

theorem read_congr (h : cell a = cell b) (m : Memory) : m.read a = m.read b := by
  rw [read, read, h]

theorem storeAll_mapIdx_congr {f g : Nat → Address} (h : ∀ k, cell (f k) = cell (g k))
    (m : Memory) (bs : List Byte) : m.storeAll (bs.mapIdx fun k b => ⟨f k, b⟩) =
      m.storeAll (bs.mapIdx fun k b => ⟨g k, b⟩) := by
  induction bs generalizing m f g with
  | nil => rfl
  | cons b bs ih =>
    rw [List.mapIdx_cons, List.mapIdx_cons]
    show (m.write (f 0) b).storeAll _ = (m.write (g 0) b).storeAll _
    rw [write_congr (h 0), ih fun k => h (k + 1)]

end Memory

/-- the bytes of a block, from an address on -/
def block (a : Address) (bs : List Byte) : List Stored := bs.mapIdx fun k b => ⟨a + k, b⟩

theorem block_cons (a : Address) (b : Byte) (bs : List Byte) :
    block a (b :: bs) = ⟨a, b⟩ :: block (a + 1) bs := by
  have haddress (k : Nat) : a + (k + 1) = a + 1 + k := by
    rw [Nat.add_comm k, Nat.add_assoc]
  rw [block, List.mapIdx_cons, block]
  congr 2
  funext k b
  rw [haddress]

namespace Memory

theorem load_eq_storeAll (m : Memory) (a : Address) (bs : List Byte) :
    m.load a bs = m.storeAll (block a bs) := by
  induction bs generalizing m a with
  | nil => rfl
  | cons b bs ih =>
    simp [ih, block_cons, storeAll]

/-! ## words -/

theorem toNat_readWord (m : Memory) (a : Address) :
    (m.readWord a).toNat = (m.read a).toNat + 0x100 * (m.read (a + 1)).toNat := by
  rw [readWord, toNat_append_eq]
  omega

/-- A word is read as it was written, also across the top of memory. -/
theorem readWord_writeWord (m : Memory) (a : Address) (v : Word) :
    (m.writeWord a v).readWord a = v := by
  have hne : cell (a + 1) ≠ cell a := by
    unfold cell
    omega
  apply BitVec.eq_of_toNat_eq
  rw [toNat_readWord, writeWord, read_write, if_neg hne, read_write, if_pos rfl, read_write,
    if_pos rfl, BitVec.toNat_setWidth, BitVec.extractLsb'_toNat, Nat.shiftRight_eq_div_pow]
  omega

end Memory

/-! ## calls -/

/-- Whether an address wraps around makes no difference to its cell. -/
theorem cell_toNat_add (a d : BitVec 32) : cell (a + d).toNat = cell (a.toNat + d.toNat) := by
  unfold cell
  rw [BitVec.toNat_add]
  exact Nat.mod_mod_of_dvd _ (by decide)

/-- What can be done to memory. -/
inductive MemoryCall where
  | writeByte (a : BitVec 32) (b : Byte)
  | writeWord (a : BitVec 32) (v : Word)
  | load (a : BitVec 32) (bs : List Byte)
  | clear
  deriving DecidableEq, Repr

/-- The bytes that a call stores, in order.  A word is stored low byte first, a block from its
address on. -/
def MemoryCall.stores : MemoryCall → List Stored
  | .writeByte a b => [⟨a.toNat, b⟩]
  | .writeWord a v =>
    [⟨a.toNat, BitVec.ofNat 8 v.toNat⟩, ⟨(a + 1).toNat, BitVec.ofNat 8 (v.toNat / 0x100)⟩]
  | .load a bs => bs.mapIdx fun k b => ⟨(a + BitVec.ofNat 32 k).toNat, b⟩
  | .clear => []

/-- the calls since memory was last cleared -/
def sinceClear (cs : List MemoryCall) : List MemoryCall := cs.rtakeWhile (· ≠ .clear)

theorem sinceClear_concat (cs : List MemoryCall) (c : MemoryCall) :
    sinceClear (cs ++ [c]) = if c = .clear then [] else sinceClear cs ++ [c] := by
  unfold sinceClear
  rw [List.rtakeWhile_concat]
  by_cases hc : c = .clear <;> simp [hc]

namespace Memory

def after (m : Memory) : MemoryCall → Memory
  | .writeByte a b => m.write a.toNat b
  | .writeWord a v => m.writeWord a.toNat v
  | .load a bs => m.load a.toNat bs
  | .clear => empty

/-- A call other than `clear` stores its bytes and does nothing else. -/
theorem after_eq (m : Memory) {c : MemoryCall} (hc : c ≠ .clear) :
    m.after c = m.storeAll c.stores := by
  cases c with
  | writeByte a b => rfl
  | writeWord a v =>
    have hlow : v.setWidth 8 = BitVec.ofNat 8 v.toNat := rfl
    have hhigh : v.extractLsb' 8 8 = BitVec.ofNat 8 (v.toNat / 0x100) := by
      rw [BitVec.extractLsb', Nat.shiftRight_eq_div_pow]
    have hnext : cell (a.toNat + 1) = cell (a + 1).toNat := (cell_toNat_add a 1).symm
    show m.writeWord a.toNat v = _
    rw [writeWord, write_congr hnext, hlow, hhigh]
    rfl
  | load a bs =>
    have hcell (k : Nat) : cell (a.toNat + k) = cell (a + BitVec.ofNat 32 k).toNat := by
      rw [cell_toNat_add, BitVec.toNat_ofNat]
      unfold cell
      omega
    show m.load a.toNat bs = _
    rw [load_eq_storeAll]
    exact storeAll_mapIdx_congr hcell m bs
  | clear => exact absurd rfl hc

/-- Calls come to the same as storing the bytes of those since the last `clear`. -/
theorem foldl_after_empty (cs : List MemoryCall) :
    cs.foldl after empty = empty.storeAll ((sinceClear cs).flatMap MemoryCall.stores) := by
  induction cs using List.reverseRecOn with
  | nil => rfl
  | append_singleton cs c ih =>
    rw [List.foldl_append, ih, sinceClear_concat]
    show (empty.storeAll _).after c = _
    by_cases hc : c = .clear
    · rw [if_pos hc, hc]
      rfl
    · rw [if_neg hc, after_eq _ hc, List.flatMap_append, storeAll_append, List.flatMap_singleton]

/-- What memory holds after any calls, all bytes being zero at first.  A byte is the one stored last
in its cell since the last `clear`, and zero if there is none.  A call changes no cell that it does
not store into.  A word is two bytes, low byte first, and is read as it was written, also where its
address or its cell wraps around. -/
theorem history (cs : List MemoryCall) (a : BitVec 32) :
    (cs.foldl after empty).read a.toNat =
      (latest? a.toNat ((sinceClear cs).flatMap MemoryCall.stores)).getD 0 ∧
    (∀ c, c ≠ .clear → (∀ s ∈ c.stores, cell s.address ≠ cell a.toNat) →
      ((cs ++ [c]).foldl after empty).read a.toNat = (cs.foldl after empty).read a.toNat) ∧
    ((cs.foldl after empty).readWord a.toNat).toNat =
      ((cs.foldl after empty).read a.toNat).toNat +
        256 * ((cs.foldl after empty).read (a + 1).toNat).toNat ∧
    ∀ v, ((cs ++ [MemoryCall.writeWord a v]).foldl after empty).readWord a.toNat = v := by
  refine ⟨?_, fun c hc hs => ?_, ?_, fun v => ?_⟩
  · rw [foldl_after_empty, read_storeAll, read_empty]
  · rw [List.foldl_append]
    show ((cs.foldl after empty).after c).read a.toNat = _
    rw [after_eq _ hc, read_storeAll, latest?_eq_none hs]
    rfl
  · rw [toNat_readWord, read_congr (cell_toNat_add a 1)]
    rfl
  · rw [List.foldl_append]
    exact readWord_writeWord _ a.toNat v

/-- A word across both wraps, cleared, stored again and overwritten in part by a block that is
longer than memory is above it. -/
theorem history_of_wrapping :
    let cs : List MemoryCall := [.writeByte 7 1, .clear, .writeWord 0xffffffff 0xbeef,
      .load 0xfffff [1, 2, 3]]
    (cs.foldl after empty).read (0x100000 : BitVec 32).toNat = 2 ∧
    ((cs ++ [MemoryCall.writeByte 0x100007 9]).foldl after empty).read
      (0x100000 : BitVec 32).toNat = 2 := by
  intro cs
  have h := history cs 0x100000
  have hlatest : latest? (0x100000 : BitVec 32).toNat
      ((sinceClear cs).flatMap MemoryCall.stores) = some 2 := by decide
  have hread : (cs.foldl after empty).read (0x100000 : BitVec 32).toNat = 2 := by
    rw [h.1, hlatest]
    rfl
  refine ⟨hread, (h.2.1 (.writeByte 0x100007 9) MemoryCall.noConfusion ?_).trans hread⟩
  decide

end Memory

end Mini8086
