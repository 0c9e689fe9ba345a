/-
LiloBoot.DevTree.Xlate — the translation of bus addresses (`bootheader/ps3/devtree.c`).

An address is four cells, the highest first. `dt_xlate` goes up from the parent of a
node and maps the address through the `ranges` of each bus. §4 is what that is for,
in numbers: the first range that contains the address, and the distance from its
start. What a call reads behind `last_addr` is a parameter, one word for each level.
-/
import LiloBoot.Lib.Cells
import LiloBoot.DevTree.Memory

namespace LiloBoot.DevTree

open LiloBoot.Memory

/-! ## §1 Registers -/

/-- `MAX_ADDR_CELLS`. -/
def maxAddrCells : Nat := 4

/-- `MAX_PROP_LEN`. -/
def maxPropLen : Nat := 256

/-- `copy_val(dest, src, naddr)`. -/
def copyVal (src : List Nat) (naddr : Nat) : List Nat :=
  List.replicate (maxAddrCells - naddr) 0 ++ src.take naddr

/-- `sub_reg(reg, sub)`: the register and the borrow. -/
def subReg : List Nat → List Nat → List Nat × Nat
  | r :: reg, s :: sub =>
    -- the lower cells come first
    let low := subReg reg sub
    let t := u32 (s + low.2)
    (sub32 r t :: low.1, if r < t then 1 else 0)
  | _, _ => ([], 0)

/-- `add_reg(reg, add, naddr)`: the register and the carry. -/
def addReg (reg add : List Nat) (naddr : Nat) : List Nat × Nat :=
  let high := maxAddrCells - naddr
  let low := Cells.add (2 ^ 32) (reg.drop high) (add.drop high)
  (reg.take high ++ low.1, low.2)

/-- The first loop of `compare_reg`: it does not return. -/
def reachesRange : List Nat → List Nat → Bool
  | r :: reg, a :: range => if r < a then false else if r > a then true else reachesRange reg range
  | _, _ => true

/-- The second loop of `compare_reg`, and `reg[i] != end`; `behind` is what `reg` has behind its
cells, `stop` the `end` of the cell before. -/
def beforeEnd (behind : Nat) : List Nat → List Nat → List Nat → Nat → Bool
  | r :: reg, a :: range, s :: rangesize, _ =>
    let stop := u32 (a + s)
    if r < stop then r ≠ stop
    else if r > stop then false
    else beforeEnd behind reg range rangesize stop
  | _, _, _, stop => behind ≠ stop

/-- The values of `end` where no cell decides. -/
def stopCells (range rangesize : List Nat) : List Nat :=
  List.zipWith (fun a s => u32 (a + s)) range rangesize

/-- `compare_reg(reg, range, rangesize)`. -/
def compareReg (behind : Nat) (reg range rangesize : List Nat) : Bool :=
  reachesRange reg range && beforeEnd behind reg range rangesize 0

/-- The loop of `find_range`. -/
def findRangeFrom (behind : Nat) (reg ranges : List Nat) (nregaddr naddr nsize : Nat) :
    Nat → Nat → Option Nat
  | 0, _ => none
  | fuel + 1, i =>
    let nrange := nregaddr + naddr + nsize
    if i + nrange ≤ ranges.length then
      let rangeAddr := copyVal (ranges.drop i) naddr
      let rangeSize := copyVal (ranges.drop (i + nregaddr + naddr)) nsize
      if compareReg behind reg rangeAddr rangeSize then some i
      else findRangeFrom behind reg ranges nregaddr naddr nsize fuel (i + nrange)
    else none

/-- `find_range`; `none` is -1. -/
def findRange (behind : Nat) (reg ranges : List Nat) (nregaddr naddr nsize : Nat) : Option Nat :=
  findRangeFrom behind reg ranges nregaddr naddr nsize (ranges.length + 1) 0

/-! ## §2 Nodes -/

/-- What is read of a node: the two numbers, where the property has four bytes, and `ranges`. -/
structure BusNode where
  addressCells : Option Nat
  sizeCells : Option Nat
  ranges : Option (List UInt8)

/-- `*naddr` of `dt_get_reg_format`. -/
def BusNode.naddr (node : BusNode) : Nat := node.addressCells.getD 2

/-- `*nsize` of `dt_get_reg_format`. -/
def BusNode.nsize (node : BusNode) : Nat := node.sizeCells.getD 1

/-- The whole words of a property. -/
def cells : List UInt8 → List Nat
  | a :: b :: c :: d :: bytes =>
    (a.toNat * 2 ^ 24 + b.toNat * 2 ^ 16 + c.toNat * 2 ^ 8 + d.toNat) :: cells bytes
  | _ => []

/-! ## §3 `dt_xlate` -/

/-- The loop of `dt_xlate` from a node up, whose parents are `bus`: `naddr` and `last_addr` where
there is no parent, and `none` for 0. -/
def xlateLoop (behind : Nat → Nat) :
    Nat → Nat → List Nat → BusNode → List BusNode → Option (Nat × List Nat)
  | naddr, _, lastAddr, _, [] => some (naddr, lastAddr)
  | prevNaddr, prevNsize, lastAddr, node, parent :: bus =>
    let naddr := parent.naddr
    let nsize := parent.nsize
    match node.ranges with
    | none => none
    | some ranges =>
      if ranges.length = 0 then xlateLoop behind naddr nsize lastAddr parent bus
      else if maxPropLen < ranges.length then none
      else
        let propBuf := cells ranges
        match findRange (behind bus.length) lastAddr propBuf prevNaddr naddr prevNsize with
        | none => none
        | some offset =>
          let sub := subReg lastAddr (copyVal (propBuf.drop offset) prevNaddr)
          if sub.2 ≠ 0 then none
          else
            let sum := addReg sub.1 (copyVal (propBuf.drop (offset + prevNaddr)) naddr) naddr
            if sum.2 ≠ 0 then none else xlateLoop behind naddr nsize sum.1 parent bus

/-- `dt_xlate`, with `sizeof(void *)` and the parents of the node: the address and the size, and
`none` for 0. -/
def dtXlate (ptrSize : Nat) (behind : Nat → Nat) (propBuf : List Nat) (reglen res : Nat) :
    List BusNode → Option (Nat × Nat)
  | [] => none
  | parent :: bus =>
    let naddr := parent.naddr
    let nsize := parent.nsize
    let offset := (naddr + nsize) * res
    if 2 < nsize then none
    else if reglen < offset + naddr + nsize ∨ maxPropLen < (offset + naddr + nsize) * 4 then none
    else
      let retSize := propBuf.getD (offset + naddr) 0
      let retSize :=
        if nsize = 2 then retSize <<< 32 ||| propBuf.getD (offset + naddr + 1) 0 else retSize
      match xlateLoop behind naddr nsize (copyVal (propBuf.drop offset) naddr) parent bus with
      | none => none
      | some (naddr, lastAddr) =>
        if 2 < naddr then none
        else
          let retAddr := lastAddr.getD 2 0 <<< 32 ||| lastAddr.getD 3 0
          if ptrSize = 4 ∧ (0x100000000 ≤ retAddr ∨ 0x100000000 < retSize ∨
              0x100000000 < retAddr + retSize) then none
          else some (retAddr, retSize)

/-- `dt_xlate_reg`. -/
def dtXlateReg (ptrSize : Nat) (behind : Nat → Nat) (reg : Option (List UInt8)) (res : Nat)
    (bus : List BusNode) : Option (Nat × Nat) :=
  match reg with
  | none => dtXlate ptrSize behind [] 0 res bus
  | some reg => dtXlate ptrSize behind (cells (reg.take maxPropLen)) (reg.length / 4) res bus

/-! ## §4 Mapping in numbers -/

/-- The entries of a table whose entries have `n` cells. -/
def rows (n : Nat) (table : List Nat) : List (List Nat) :=
  (List.range (table.length / n)).map fun k => (table.drop (n * k)).take n

/-- How an entry is divided: the cells of an address on the bus, of one on the parent's, and of a
size. -/
structure Format where
  naddr : Nat
  parentNaddr : Nat
  nsize : Nat

namespace Format

variable (f : Format) (row : List Nat)

def width : Nat := f.naddr + f.parentNaddr + f.nsize

/-- The start of the range on the bus. -/
def start : Nat := Cells.value (2 ^ 32) (row.take f.naddr)

/-- Its start on the parent's bus. -/
def parentStart : Nat := Cells.value (2 ^ 32) ((row.drop f.naddr).take f.parentNaddr)

def size : Nat := Cells.value (2 ^ 32) (row.drop (f.naddr + f.parentNaddr))

/-- The range `[a, a + size)` contains the address. -/
def Contains (x : Nat) : Prop := f.start row ≤ x ∧ x < f.start row + f.size row

instance (x : Nat) : Decidable (f.Contains row x) := inferInstanceAs (Decidable (_ ∧ _))

end Format

namespace Format

variable (f : Format) (row : List Nat)

/-- The end of the range, cell by cell without the carries. -/
def cellwiseStop : Nat :=
  Cells.value (2 ^ 32) (stopCells (copyVal row f.naddr)
    (copyVal (row.drop (f.naddr + f.parentNaddr)) f.nsize))

/-- `find_range` reads the start of the range, although it takes the number of the parent's cells,
and the address is not where the sums of the cells are wrong or have no end. -/
structure Comparable (x : Nat) : Prop where
  start : copyVal row f.parentNaddr = copyVal row f.naddr
  stop : x < f.start row ∨ x < f.cellwiseStop row ∨
    f.start row + f.size row ≤ x ∧ x ≠ f.cellwiseStop row

/-- No borrow meets a cell that is full, and the distance fits into the parent's cells. -/
structure Movable (x : Nat) : Prop where
  borrow : ∀ i, f.start row / (2 ^ 32) ^ i % 2 ^ 32 = 2 ^ 32 - 1 →
    f.start row % (2 ^ 32) ^ i ≤ x % (2 ^ 32) ^ i
  distance : x - f.start row < (2 ^ 32) ^ f.parentNaddr

/-- Every entry up to the first that contains the address can be compared with it, and that one
can be mapped through. -/
def Passable (x : Nat) : List (List Nat) → Prop
  | [] => True
  | row :: table =>
    f.Comparable row x ∧ if f.Contains row x then f.Movable row x else Passable x table

end Format

/-- The format of the table of a node below `parent`. -/
def BusNode.format (node parent : BusNode) : Format := ⟨node.naddr, parent.naddr, node.nsize⟩

/-- The address on the topmost bus. An empty table maps an address to itself; one that is missing
or that does not fit into `prop_buf` maps none, and an address must fit into its cells. -/
def mapUp : Nat → BusNode → List BusNode → Option Nat
  | x, _, [] => some x
  | x, node, parent :: bus =>
    match node.ranges with
    | none => none
    | some ranges =>
      if ranges = [] then
        if x < (2 ^ 32) ^ parent.naddr then mapUp x parent bus else none
      else if maxPropLen < ranges.length then none
      else
        let f := node.format parent
        match (rows f.width (cells ranges)).find? fun row => decide (f.Contains row x) with
        | none => none
        | some row =>
          let y := x - f.start row + f.parentStart row
          if y < (2 ^ 32) ^ parent.naddr then mapUp y parent bus else none

/-- The tables on the way up are passable for the addresses that they are used with. -/
def PassableUp : Nat → BusNode → List BusNode → Prop
  | _, _, [] => True
  | x, node, parent :: bus =>
    match node.ranges with
    | none => True
    | some ranges =>
      if ranges = [] then x < (2 ^ 32) ^ parent.naddr ∧ PassableUp x parent bus
      else if maxPropLen < ranges.length then True
      else
        let f := node.format parent
        f.Passable x (rows f.width (cells ranges)) ∧
          ∀ row,
            (rows f.width (cells ranges)).find? (fun row => decide (f.Contains row x)) = some row →
            x - f.start row + f.parentStart row < (2 ^ 32) ^ parent.naddr →
            PassableUp (x - f.start row + f.parentStart row) parent bus

/-- A call of `dt_xlate_reg` for a node that has the parents `parent :: bus`, with 1 to 4 address
cells and 1 or 2 size cells each. -/
structure XlateCall where
  ptrSize : Nat
  reg : Option (List UInt8)
  res : Nat
  parent : BusNode
  bus : List BusNode
  naddr : ∀ node ∈ parent :: bus, 1 ≤ node.naddr ∧ node.naddr ≤ 4
  nsize : ∀ node ∈ parent :: bus, 1 ≤ node.nsize ∧ node.nsize ≤ 2
  /-- The place of the register is an `int`. -/
  place : (parent.naddr + parent.nsize) * (res + 1) < 2 ^ 31

namespace XlateCall

variable (c : XlateCall)

/-- The cells of the register, where they are in the property and in `prop_buf`. -/
def register : Option (List Nat) :=
  let width := c.parent.naddr + c.parent.nsize
  match c.reg with
  | none => none
  | some reg =>
    if width * (c.res + 1) ≤ reg.length / 4 ∧ width * (c.res + 1) * 4 ≤ maxPropLen then
      some (((cells reg).drop (width * c.res)).take width)
    else none

/-- The address and the size that the register has on the topmost bus, where they fit. -/
def mapped : Option (Nat × Nat) :=
  match c.register with
  | none => none
  | some register =>
    let size := Cells.value (2 ^ 32) (register.drop c.parent.naddr)
    match mapUp (Cells.value (2 ^ 32) (register.take c.parent.naddr)) c.parent c.bus with
    | none => none
    | some y =>
      -- the address and the end of the block in a pointer, and an address of two cells at most
      if ((c.parent :: c.bus).getLastD c.parent).naddr ≤ 2 ∧
          (c.ptrSize = 4 → y < 2 ^ 32 ∧ y + size ≤ 2 ^ 32) then some (y, size)
      else none

/-- The register can be mapped up. -/
def Passable : Prop :=
  ∀ register ∈ c.register,
    PassableUp (Cells.value (2 ^ 32) (register.take c.parent.naddr)) c.parent c.bus

/-- The call gives the mapped address, whatever stands behind `last_addr`. -/
def Right : Prop :=
  ∀ behind, dtXlateReg c.ptrSize behind c.reg c.res (c.parent :: c.bus) = c.mapped

end XlateCall

end LiloBoot.DevTree
