/-
LiloBoot.ReiserFS.Journal — `journal_init` and `block_read` of
`second/fs_reiserfs.c`.

A journal block is its 32-bit words as the big-endian CPU loads them; the fields
of `reiserfs_journal_desc`, `reiserfs_journal_commit` and
`reiserfs_journal_header` are words of it, and `le32_to_cpu` swaps their bytes.
Reads of the journal succeed. Block numbers of the journal are relative to
`journal_block`, as in the source.

The table that `journal_init` fills lies in memory; an address is a word index
from the start of `FSYS_BUF`, and the memory behind the buffer is whatever it
is. `JOURNAL_END` is an argument of the functions: `journalEnd` is its value in
the source. The search returns the block that `block_read` finally reads and
the table words it has looked at.
-/
import LiloBoot.Basic

namespace LiloBoot.ReiserFS

/-! ## Byte order -/

/-- `swab32`. -/
def swab32 (n : Nat) : Nat :=
  n % 2 ^ 8 * 2 ^ 24 + n / 2 ^ 8 % 2 ^ 8 * 2 ^ 16 + n / 2 ^ 16 % 2 ^ 8 * 2 ^ 8
    + n / 2 ^ 24 % 2 ^ 8

/-- `le32_to_cpu` of a loaded word. -/
def le32ToCpu (w : UInt32) : Nat := swab32 w.toNat

/-! ## Journal blocks -/

/-- The words of a block. -/
abbrev Words := Nat → UInt32

/-- `JOURNAL_TRANS_HALF`. -/
def journalTransHalf : Nat := 1018

def descTransId (desc : Words) : UInt32 := desc 0
def descLen (desc : Words) : UInt32 := desc 1
def descMountId (desc : Words) : UInt32 := desc 2
def descRealblock (desc : Words) (i : Nat) : UInt32 := desc (3 + i)

/-- `strcmp(JOURNAL_DESC_MAGIC, desc.j_magic) == 0`: the eight letters `ReIsErLB` and the
NUL behind them. -/
def descMagic (desc : Words) : Bool :=
  desc 1021 == 0x52654973 && desc 1022 == 0x45724c42 && desc 1023 / 2 ^ 24 == 0

def commitTransId (commit : Words) : UInt32 := commit 0
def commitLen (commit : Words) : UInt32 := commit 1
def commitRealblock (commit : Words) (i : Nat) : UInt32 := commit (2 + i)

def headerLastFlushTransId (header : Words) : UInt32 := header 0
def headerFirstUnflushedOffset (header : Words) : UInt32 := header 1
def headerMountId (header : Words) : UInt32 := header 2

/-! ## State -/

/-- The fields of `reiserfs_state` for the journal. -/
structure Info where
  journalBlock : Nat
  journalBlockCount : Nat
  journalFirstDesc : Nat
  journalTransactions : Nat
  deriving DecidableEq, Repr

/-- The words of `FSYS_BUF`: `FSYSREISER_CACHE_SIZE` is 7 blocks of 4096 bytes. -/
def fsysBufWords : Nat := 7 * 4096 / 4

/-- `JOURNAL_START`, `FSYSREISER_CACHE_SIZE` bytes into `FSYS_BUF`. -/
def journalStart : Nat := 7 * 4096 / 4

/-- `JOURNAL_END`, `sizeof(FSYS_BUF)` bytes into `FSYS_BUF`. -/
def journalEnd : Nat := fsysBufWords

/-- The marker behind the cached transactions. -/
def cacheEnd : UInt32 := 0xffffffff

/-- Words stored one after the other from `a` on. -/
def storeWords (mem : Words) (a : Nat) : List UInt32 → Words
  | [] => mem
  | w :: ws => storeWords (fun x => if x = a then w else mem x) (a + 1) ws

/-! ## `journal_init` -/

/-- The words that one transaction takes in the table. -/
def tableEntry (desc commit : Words) : List UInt32 :=
  let len := le32ToCpu (descLen desc)
  descLen desc
    :: ((List.range (min len journalTransHalf)).map (descRealblock desc)
        ++ (List.range (len - journalTransHalf)).map (commitRealblock commit))

/-- The caching part of the loop body: the table and the pointer behind it. -/
def cacheTransaction (tableEnd : Nat) (desc commit mem : Words) (table : Nat) :
    Words × Nat :=
  if table < tableEnd then
    if tableEnd ≤ table + 1 + le32ToCpu (descLen desc) then
      (storeWords mem table [cacheEnd], tableEnd)
    else
      (storeWords mem table (tableEntry desc commit),
        table + (tableEntry desc commit).length)
  else (mem, table)

/-- The block of the commit that belongs to the descriptor at `descBlock`. -/
def commitBlock (count descBlock : Nat) (desc : Words) : Nat :=
  u32 (descBlock + le32ToCpu (descLen desc) + 1) &&& (count - 1)

/-- The local variables that the loop of `journal_init` carries. -/
structure InitState where
  descBlock : Nat
  nextTransId : Nat
  table : Nat
  mem : Words

/-- One turn of the loop; `none` for its two `break`s. -/
def journalInitStep (tableEnd : Nat) (journal : Nat → Words) (count : Nat) (header : Words)
    (s : InitState) : Option InitState :=
  let desc := journal s.descBlock
  if descMagic desc = false ∨ (descTransId desc).toNat ≠ s.nextTransId
      ∨ descMountId desc ≠ headerMountId header then none
  else
    let commit := journal (commitBlock count s.descBlock desc)
    if descTransId desc ≠ commitTransId commit ∨ descLen desc ≠ commitLen commit then none
    else
      let cached := cacheTransaction tableEnd desc commit s.mem s.table
      some
        { descBlock := u32 (commitBlock count s.descBlock desc + 1) &&& (count - 1)
          nextTransId := u32 (s.nextTransId + 1)
          table := cached.2
          mem := cached.1 }

/-- `while (1)`; `none` when the fuel runs out first. -/
def journalInitLoop (tableEnd : Nat) (journal : Nat → Words) (count : Nat) (header : Words) :
    Nat → InitState → Option InitState
  | 0, _ => none
  | fuel + 1, s =>
    match journalInitStep tableEnd journal count header s with
    | none => some s
    | some s' => journalInitLoop tableEnd journal count header fuel s'

/-- `journal_init`: the state and the memory it leaves. -/
def journalInit (tableEnd fuel : Nat) (journal : Nat → Words) (info : Info) (mem : Words) :
    Option (Info × Words) :=
  let count := info.journalBlockCount
  let header := journal count
  let descBlock := le32ToCpu (headerFirstUnflushedOffset header)
  if count ≤ descBlock then some (info, mem)
  else
    let last := le32ToCpu (headerLastFlushTransId header)
    match journalInitLoop tableEnd journal count header fuel
        ⟨descBlock, u32 (last + 1), journalStart, mem⟩ with
    | none => none
    | some s =>
      some ({ info with
          journalFirstDesc := descBlock
          journalTransactions := u16 (sub32 (sub32 s.nextTransId last) 1) }, s.mem)

/-! ## `block_read` -/

/-- The search in a cached transaction with `n` words left, `i` of `len` looked at. The
result is the index the search stops at, the pointer, and the words it has read. -/
def searchCached (mem : Words) (blockNr len : Nat) :
    Nat → Nat → Nat → Option Nat × Nat × List Nat
  | 0, _, table => (none, table, [])
  | n + 1, i, table =>
    if le32ToCpu (mem table) = blockNr then
      (some (i + 1), table + 1 + (len - (i + 1)), [table])
    else
      let r := searchCached mem blockNr len n (i + 1) (table + 1)
      (r.1, r.2.1, table :: r.2.2)

/-- The search in one of the two arrays of a transaction on disk. -/
def searchRealblocks (realblock : Nat → UInt32) (blockNr : Nat) : Nat → Nat → Option Nat
  | 0, _ => none
  | n + 1, i =>
    if le32ToCpu (realblock i) = blockNr then some (i + 1)
    else searchRealblocks realblock blockNr n (i + 1)

/-- The search in a transaction that is not cached; `len` is not negative. -/
def searchDisk (journal : Nat → Words) (count descBlock blockNr len : Nat) : Option Nat :=
  match searchRealblocks (descRealblock (journal descBlock)) blockNr
      (min len journalTransHalf) 0 with
  | some i => some i
  | none =>
    if journalTransHalf ≤ len then
      let commit := journal (u32 (descBlock + 1 + len) &&& (count - 1))
      searchRealblocks (fun i => commitRealblock commit (i - journalTransHalf)) blockNr
        (len - journalTransHalf) journalTransHalf
    else none

/-- The loop of `block_read` over the transactions left. -/
def blockReadLoop (journal : Nat → Words) (info : Info) (mem : Words) (blockNr : Nat) :
    Nat → Nat → Nat → Nat → Nat × List Nat
  | 0, _, _, translatedNr => (translatedNr, [])
  | transactions + 1, table, descBlock, translatedNr =>
    let mask := info.journalBlockCount - 1
    let found := fun i => u32 (info.journalBlock + (u32 (descBlock + i) &&& mask))
    if mem table ≠ cacheEnd then
      let word := le32ToCpu (mem table)
      -- `j_len` is an `int`: a negative one runs no turn of the search
      let r := searchCached mem blockNr (s32 word).toNat (s32 word).toNat 0 (table + 1)
      let rest := blockReadLoop journal info mem blockNr transactions r.2.1
        (u32 (descBlock + 2 + word) &&& mask) ((r.1.map found).getD translatedNr)
      (rest.1, table :: r.2.2 ++ rest.2)
    else
      let word := le32ToCpu (descLen (journal descBlock))
      let r := searchDisk journal info.journalBlockCount descBlock blockNr (s32 word).toNat
      let rest := blockReadLoop journal info mem blockNr transactions table
        (u32 (descBlock + 2 + word) &&& mask) ((r.map found).getD translatedNr)
      (rest.1, table :: rest.2)

/-- `block_read` up to its last line: the block that is read instead of `blockNr`, and
the table words that were read to find it. -/
def blockRead (journal : Nat → Words) (info : Info) (mem : Words) (blockNr : Nat) :
    Nat × List Nat :=
  blockReadLoop journal info mem blockNr info.journalTransactions journalStart
    info.journalFirstDesc blockNr

end LiloBoot.ReiserFS
