/-
LiloBoot.ReiserFS.JournalLookupTheorems — which block `block_read` reads.

The abstract journal is a list of transactions, each the list of block numbers it
logs; `lastCopy` is the ring position of the copy that counts. `blockReadLoop_spec`
says that the search finds it and stays in the table, whatever is cached and
whatever is behind the marker, as long as the table lies in `FSYS_BUF`
(`blockRead_correct`). In the source it does not: `JOURNAL_START` is
`JOURNAL_END`, and `blockRead_correct_iff` is what remains of the property.
-/
import LiloBoot.ReiserFS.Journal

namespace LiloBoot.ReiserFS

/-! ## §1 Bytes and the ring -/

/-- `swab32` reverses the bytes. -/
theorem swab32_bytes {a b c d : Nat} (ha : a < 256) (hb : b < 256) (hc : c < 256)
    (hd : d < 256) :
    swab32 (a * 2 ^ 24 + b * 2 ^ 16 + c * 2 ^ 8 + d)
      = d * 2 ^ 24 + c * 2 ^ 16 + b * 2 ^ 8 + a := by
  simp only [swab32]
  omega

/-- Swapping the bytes twice gives the word back. -/
theorem swab32_swab32 {n : Nat} (h : n < 2 ^ 32) : swab32 (swab32 n) = n := by
  have hbyte : ∀ m, m % 2 ^ 8 < 256 := fun m => Nat.mod_lt _ (by decide)
  have hn : n / 2 ^ 24 % 2 ^ 8 * 2 ^ 24 + n / 2 ^ 16 % 2 ^ 8 * 2 ^ 16
      + n / 2 ^ 8 % 2 ^ 8 * 2 ^ 8 + n % 2 ^ 8 = n := by omega
  have hswap : swab32 n = n % 2 ^ 8 * 2 ^ 24 + n / 2 ^ 8 % 2 ^ 8 * 2 ^ 16
      + n / 2 ^ 16 % 2 ^ 8 * 2 ^ 8 + n / 2 ^ 24 % 2 ^ 8 := rfl
  rw [hswap, swab32_bytes (hbyte _) (hbyte _) (hbyte _) (hbyte _), hn]

theorem swab32_lt (n : Nat) : swab32 n < 2 ^ 32 := by
  simp only [swab32]
  omega

theorem le32ToCpu_lt (w : UInt32) : le32ToCpu w < 2 ^ 32 := swab32_lt _

/-- Masking with a power of two less one is the remainder, also after a 32-bit wrap. -/
theorem ring_mask {k : Nat} (hk : k < 32) (n : Nat) :
    u32 n &&& (2 ^ k - 1) = n % 2 ^ k := by
  rw [Nat.and_two_pow_sub_one_eq_mod, u32]
  exact Nat.mod_mod_of_dvd n (Nat.pow_dvd_pow 2 (by omega))

/-! ## §2 Transactions in the ring -/

/-- The block numbers a transaction logs. -/
abbrev Txn := List Nat

/-- The words from `a` on are these numbers in the byte order of the disk. -/
def Holds (words : Words) : Nat → List Nat → Prop
  | _, [] => True
  | a, b :: bs => le32ToCpu (words a) = b ∧ Holds words (a + 1) bs

/-- Where the transaction behind `t` has its descriptor. -/
def nextDesc (count desc : Nat) (t : Txn) : Nat := (desc + t.length + 2) % count

/-- The transactions lie in the ring from the descriptor `desc` on: length and first half
of the block numbers in the descriptor, second half in the commit block. -/
def LaidOut (journal : Nat → Words) (count : Nat) : Nat → List Txn → Prop
  | _, [] => True
  | desc, t :: ts =>
    t.length ≤ 2 * journalTransHalf
      ∧ le32ToCpu (descLen (journal desc)) = t.length
      ∧ Holds (journal desc) 3 (t.take journalTransHalf)
      ∧ Holds (journal ((desc + t.length + 1) % count)) 2 (t.drop journalTransHalf)
      ∧ LaidOut journal count (nextDesc count desc t) ts

/-- The copy of `b` in the transaction at `desc`. -/
def copyIn (count desc : Nat) (t : Txn) (b : Nat) : Option Nat :=
  (t.idxOf? b).map fun i => (desc + 1 + i) % count

/-- The copy of `b` in the last transaction that logs `b`. -/
def lastCopy (count b : Nat) : Nat → List Txn → Option Nat
  | _, [] => none
  | desc, t :: ts => (lastCopy count b (nextDesc count desc t) ts).or (copyIn count desc t b)

/-- The block that holds the current contents of `b`. -/
def currentBlock (info : Info) (txns : List Txn) (b : Nat) : Nat :=
  ((lastCopy info.journalBlockCount b info.journalFirstDesc txns).map
    fun pos => u32 (info.journalBlock + pos)).getD b

/-! ## §3 The searches -/

theorem searchCached_spec {mem : Words} {b len : Nat} (bs : List Nat) :
    ∀ i a, Holds mem a bs → i + bs.length = len →
      (searchCached mem b len bs.length i a).1 = (bs.idxOf? b).map (i + 1 + ·)
      ∧ (searchCached mem b len bs.length i a).2.1 = a + bs.length
      ∧ ∀ x ∈ (searchCached mem b len bs.length i a).2.2, x < a + bs.length := by
  induction bs with
  | nil => intro i a _ _; simp [searchCached]
  | cons w rest ih =>
    intro i a hold hlen
    obtain ⟨hw, hrest⟩ := hold
    simp only [List.length_cons] at hlen
    by_cases hb : w = b
    · simp only [List.length_cons, searchCached, hw, hb, if_true]
      refine ⟨by simp [List.idxOf?_cons], by omega, ?_⟩
      intro x hx
      simp only [List.mem_singleton] at hx
      omega
    · obtain ⟨hidx, hptr, hreads⟩ := ih (i + 1) (a + 1) hrest (by omega)
      simp only [List.length_cons, searchCached, hw, hb, if_false]
      refine ⟨?_, by omega, ?_⟩
      · rw [hidx, List.idxOf?_cons, beq_false_of_ne hb]
        cases rest.idxOf? b with
        | none => rfl
        | some m => simp only [Bool.false_eq_true, if_false, Option.map_some]; congr 1; omega
      · intro x hx
        rcases List.mem_cons.mp hx with rfl | hx
        · omega
        · have := hreads x hx
          omega

theorem searchRealblocks_spec {words : Words} (realblock : Nat → UInt32) {b : Nat}
    (bs : List Nat) :
    ∀ i a, Holds words a bs → (∀ m, realblock (i + m) = words (a + m)) →
      searchRealblocks realblock b bs.length i = (bs.idxOf? b).map (i + 1 + ·) := by
  induction bs with
  | nil => intro i a _ _; simp [searchRealblocks]
  | cons w rest ih =>
    intro i a hold hget
    obtain ⟨hw, hrest⟩ := hold
    have hhead : realblock i = words a := hget 0
    have htail : ∀ m, realblock (i + 1 + m) = words (a + 1 + m) := by
      intro m
      rw [Nat.add_right_comm i, Nat.add_right_comm a]
      exact hget (m + 1)
    simp only [List.length_cons, searchRealblocks, hhead, hw, List.idxOf?_cons]
    by_cases hb : w = b
    · simp [hb]
    · rw [if_neg hb, ih (i + 1) (a + 1) hrest htail, beq_false_of_ne hb]
      cases rest.idxOf? b with
      | none => rfl
      | some m => simp only [Bool.false_eq_true, if_false, Option.map_some]; congr 1; omega

/-- The two half tables together are searched like one list. -/
theorem searchDisk_spec {journal : Nat → Words} {k : Nat} (hk : k < 32) {desc b : Nat}
    {t : Txn} {ts : List Txn} (hlaid : LaidOut journal (2 ^ k) desc (t :: ts)) :
    searchDisk journal (2 ^ k) desc b t.length = (t.idxOf? b).map (1 + ·) := by
  obtain ⟨-, -, hfirst, hsecond, -⟩ := hlaid
  have hhalf : (t.take journalTransHalf).length = min t.length journalTransHalf := by
    rw [List.length_take, Nat.min_comm]
  have h1 := searchRealblocks_spec (descRealblock (journal desc)) (b := b)
    (t.take journalTransHalf) 0 3 hfirst fun m => by rw [Nat.zero_add]; rfl
  rw [hhalf] at h1
  have hsplit : t.idxOf? b = ((t.take journalTransHalf).idxOf? b).or
      (((t.drop journalTransHalf).idxOf? b).map (· + (t.take journalTransHalf).length)) := by
    rw [List.idxOf?, ← List.findIdx?_append, List.take_append_drop]
  unfold searchDisk
  rw [h1, hsplit]
  cases hcase : (t.take journalTransHalf).idxOf? b with
  | some i => simp
  | none =>
    simp only [Option.map_none, Option.none_or]
    by_cases hlong : journalTransHalf ≤ t.length
    · have hpos : u32 (desc + 1 + t.length) &&& (2 ^ k - 1) = (desc + t.length + 1) % 2 ^ k := by
        rw [ring_mask hk, Nat.add_right_comm]
      have hlen : (t.drop journalTransHalf).length = t.length - journalTransHalf := by
        rw [List.length_drop]
      have h2 := searchRealblocks_spec
        (fun i => commitRealblock (journal ((desc + t.length + 1) % 2 ^ k))
          (i - journalTransHalf))
        (b := b) (t.drop journalTransHalf) journalTransHalf 2 hsecond
        fun m => by simp only [commitRealblock, Nat.add_sub_cancel_left]
      rw [if_pos hlong, hpos, ← hlen, h2, hhalf, Nat.min_eq_right hlong]
      cases (t.drop journalTransHalf).idxOf? b with
      | none => rfl
      | some m => simp only [Option.map_some]; congr 1; omega
    · have hdrop : t.drop journalTransHalf = [] := List.drop_eq_nil_of_le (by omega)
      simp [hlong, hdrop]

/-! ## §4 The table -/

/-- The table from `table` on describes the transactions: one after the other with their
lengths, up to the marker if there is one. All of it lies below `tableEnd`. -/
def TableHolds (tableEnd : Nat) (mem : Words) : Nat → List Txn → Prop
  | _, [] => True
  | table, t :: ts =>
    table < tableEnd
      ∧ (mem table = cacheEnd
        ∨ (mem table ≠ cacheEnd ∧ le32ToCpu (mem table) = t.length
          ∧ table + 1 + t.length ≤ tableEnd ∧ Holds mem (table + 1) t
          ∧ TableHolds tableEnd mem (table + 1 + t.length) ts))

/-- From the marker on the table says nothing about the transactions left. -/
theorem tableHolds_marker {tableEnd : Nat} {mem : Words} {table : Nat}
    (hlt : table < tableEnd) (hmark : mem table = cacheEnd) (ts : List Txn) :
    TableHolds tableEnd mem table ts := by
  cases ts with
  | nil => trivial
  | cons t ts => exact ⟨hlt, .inl hmark⟩

/-- The caching part of `journal_init` over the transactions of the run. -/
def cacheAll (tableEnd count : Nat) (journal : Nat → Words) :
    Nat → Words → Nat → List Txn → Words
  | _, mem, _, [] => mem
  | desc, mem, table, t :: ts =>
    let cached := cacheTransaction tableEnd (journal desc)
      (journal ((desc + t.length + 1) % count)) mem table
    cacheAll tableEnd count journal (nextDesc count desc t) cached.1 cached.2 ts

theorem storeWords_below (ws : List UInt32) :
    ∀ (mem : Words) (a x : Nat), x < a → storeWords mem a ws x = mem x := by
  induction ws with
  | nil => intro mem a x _; rfl
  | cons w ws ih =>
    intro mem a x hx
    rw [storeWords, ih _ _ _ (by omega), if_neg (by omega)]

theorem storeWords_head (mem : Words) (a : Nat) (w : UInt32) (ws : List UInt32) :
    storeWords mem a (w :: ws) a = w := by
  rw [storeWords, storeWords_below ws _ _ _ (by omega), if_pos rfl]

/-- Stored words are held, in the byte order they come in. -/
theorem holds_storeWords (ws : List UInt32) :
    ∀ (mem : Words) (a : Nat), Holds (storeWords mem a ws) a (ws.map le32ToCpu) := by
  induction ws with
  | nil => intro mem a; trivial
  | cons w ws ih =>
    intro mem a
    refine ⟨?_, ih _ (a + 1)⟩
    rw [storeWords_head]

theorem holds_congr {mem : Words} (mem' : Words) (bs : List Nat) :
    ∀ a, (∀ x < a + bs.length, mem' x = mem x) → Holds mem a bs → Holds mem' a bs := by
  induction bs with
  | nil => intro a _ _; trivial
  | cons b bs ih =>
    intro a hsame hold
    simp only [List.length_cons] at hsame
    exact ⟨(hsame a (by omega)) ▸ hold.1,
      ih (a + 1) (fun x hx => hsame x (by omega)) hold.2⟩

theorem holds_map_range {words : Words} (realblock : Nat → UInt32) (bs : List Nat) :
    ∀ i a, Holds words a bs → (∀ m, realblock (i + m) = words (a + m)) →
      (List.range' i bs.length).map (fun m => le32ToCpu (realblock m)) = bs := by
  induction bs with
  | nil => intro i a _ _; rfl
  | cons b bs ih =>
    intro i a hold hget
    have hhead : realblock i = words a := hget 0
    have htail : ∀ m, realblock (i + 1 + m) = words (a + 1 + m) := by
      intro m
      rw [Nat.add_right_comm i, Nat.add_right_comm a]
      exact hget (m + 1)
    rw [List.length_cons, List.range'_succ, List.map_cons, hhead, hold.1,
      ih (i + 1) (a + 1) hold.2 htail]

/-- The words cached for a transaction are its length and its block numbers. -/
theorem tableEntry_eq {journal : Nat → Words} {count desc : Nat} {t : Txn} {ts : List Txn}
    (hlaid : LaidOut journal count desc (t :: ts)) :
    (tableEntry (journal desc) (journal ((desc + t.length + 1) % count))).map le32ToCpu
      = t.length :: t := by
  obtain ⟨-, hlen, hfirst, hsecond, -⟩ := hlaid
  have h1 := holds_map_range (descRealblock (journal desc)) _ 0 3 hfirst
    fun m => by rw [Nat.zero_add]; rfl
  have h2 := holds_map_range
    (commitRealblock (journal ((desc + t.length + 1) % count))) _ 0 2 hsecond
    fun m => by rw [Nat.zero_add]; rfl
  rw [List.length_take, Nat.min_comm, ← List.range_eq_range'] at h1
  rw [List.length_drop, ← List.range_eq_range'] at h2
  simp only [tableEntry, hlen, List.map_cons, List.map_append, List.map_map, Function.comp_def,
    h1, h2, List.take_append_drop]

theorem tableEntry_length {journal : Nat → Words} {count desc : Nat} {t : Txn} {ts : List Txn}
    (hlaid : LaidOut journal count desc (t :: ts)) :
    (tableEntry (journal desc) (journal ((desc + t.length + 1) % count))).length
      = t.length + 1 := by
  have := congrArg List.length (tableEntry_eq hlaid)
  simpa using this

/-- The caching of later transactions leaves the table below its pointer alone. -/
theorem cacheAll_below {tableEnd count : Nat} {journal : Nat → Words} (ts : List Txn) :
    ∀ desc mem table, ∀ x < table,
      cacheAll tableEnd count journal desc mem table ts x = mem x := by
  induction ts with
  | nil => intro desc mem table x _; rfl
  | cons t ts ih =>
    intro desc mem table x hx
    rw [cacheAll, cacheTransaction]
    split
    · split
      · exact (ih _ _ _ _ (by omega)).trans (storeWords_below _ _ _ _ hx)
      · exact (ih _ _ _ _ (by simp only; omega)).trans (storeWords_below _ _ _ _ hx)
    · exact ih _ _ _ _ hx

/-- A length of at most two halves is not the marker. -/
theorem ne_cacheEnd {w : UInt32} {n : Nat} (h : le32ToCpu w = n) (hn : n ≤ 2 * journalTransHalf) :
    w ≠ cacheEnd := by
  rintro rfl
  have hmark : le32ToCpu cacheEnd = 0xffffffff := by decide
  simp only [journalTransHalf] at hn
  omega

/-- **The table is filled**: if there is room for one word, `journal_init` leaves a table
that describes the run. -/
theorem cacheAll_holds {tableEnd count : Nat} {journal : Nat → Words} (ts : List Txn) :
    ∀ desc mem table, table < tableEnd → LaidOut journal count desc ts →
      TableHolds tableEnd (cacheAll tableEnd count journal desc mem table ts) table ts := by
  induction ts with
  | nil => intro desc mem table _ _; trivial
  | cons t ts ih =>
    intro desc mem table hlt hlaid
    have hentry := tableEntry_eq hlaid
    have hcount := tableEntry_length hlaid
    have hlen := hlaid.2.1
    refine ⟨hlt, ?_⟩
    rw [cacheAll, cacheTransaction, if_pos hlt, hlen]
    by_cases hroom : tableEnd ≤ table + 1 + t.length
    · -- no room for the entry: the marker is stored and nothing comes after it
      left
      rw [if_pos hroom]
      simp only
      rw [cacheAll_below _ _ _ _ _ hlt]
      exact storeWords_head _ _ _ _
    · right
      rw [if_neg hroom, hcount]
      simp only
      generalize hmem' : cacheAll tableEnd count journal (nextDesc count desc t)
        (storeWords mem table (tableEntry (journal desc)
          (journal ((desc + t.length + 1) % count)))) (table + (t.length + 1)) ts = mem'
      have hbelow : ∀ x < table + (t.length + 1), mem' x = storeWords mem table
          (tableEntry (journal desc) (journal ((desc + t.length + 1) % count))) x := by
        intro x hx
        rw [← hmem', cacheAll_below _ _ _ _ _ hx]
      have hstored := holds_storeWords
        (tableEntry (journal desc) (journal ((desc + t.length + 1) % count))) mem table
      rw [hentry] at hstored
      have hheld := holds_congr mem' (t.length :: t) table
        (fun x hx => hbelow x (by simpa using hx)) hstored
      have hrest := ih (nextDesc count desc t)
        (storeWords mem table (tableEntry (journal desc)
          (journal ((desc + t.length + 1) % count)))) (table + (t.length + 1)) (by omega)
        hlaid.2.2.2.2
      rw [hmem', ← Nat.add_assoc, Nat.add_right_comm] at hrest
      exact ⟨ne_cacheEnd hheld.1 hlaid.1, hheld.1, by omega, hheld.2, hrest⟩

/-! ## §5 The search over the run -/

theorem found_eq {info : Info} {k : Nat} (hk : k < 32) (desc : Nat) (i : Nat) :
    u32 (info.journalBlock + (u32 (desc + (1 + i)) &&& (2 ^ k - 1)))
      = u32 (info.journalBlock + (desc + 1 + i) % 2 ^ k) := by
  rw [ring_mask hk, ← Nat.add_assoc]

theorem next_eq {k : Nat} (hk : k < 32) (desc : Nat) (t : Txn) :
    u32 (desc + 2 + t.length) &&& (2 ^ k - 1) = nextDesc (2 ^ k) desc t := by
  rw [ring_mask hk, nextDesc, Nat.add_right_comm]

/-- The search over a run of transactions ends at the last copy and reads no table word
behind the table. -/
theorem blockReadLoop_spec {journal : Nat → Words} {info : Info} {mem : Words} {k : Nat}
    (hk : k < 32) (hcount : info.journalBlockCount = 2 ^ k) {tableEnd : Nat} (b : Nat)
    (ts : List Txn) :
    ∀ table desc translated, LaidOut journal (2 ^ k) desc ts →
      TableHolds tableEnd mem table ts →
      (blockReadLoop journal info mem b ts.length table desc translated).1
          = ((lastCopy (2 ^ k) b desc ts).map
              fun pos => u32 (info.journalBlock + pos)).getD translated
        ∧ ∀ x ∈ (blockReadLoop journal info mem b ts.length table desc translated).2,
            x < tableEnd := by
  induction ts with
  | nil => intro table desc translated _ _; simp [blockReadLoop, lastCopy]
  | cons t ts ih =>
    intro table desc translated hlaid htable
    have hlen : le32ToCpu (descLen (journal desc)) = t.length := hlaid.2.1
    have hshort : t.length ≤ 2 * journalTransHalf := hlaid.1
    have hint : (s32 t.length).toNat = t.length := by
      rw [s32_of_lt (by simp only [journalTransHalf] at hshort; omega), Int.toNat_natCast]
    have hfinal : ∀ tr : Nat,
        ((lastCopy (2 ^ k) b (nextDesc (2 ^ k) desc t) ts).map
            fun pos => u32 (info.journalBlock + pos)).getD
          (((copyIn (2 ^ k) desc t b).map fun pos => u32 (info.journalBlock + pos)).getD tr)
        = ((lastCopy (2 ^ k) b desc (t :: ts)).map
            fun pos => u32 (info.journalBlock + pos)).getD tr := by
      intro tr
      rw [lastCopy]
      cases lastCopy (2 ^ k) b (nextDesc (2 ^ k) desc t) ts <;> rfl
    have hcopy : (((t.idxOf? b).map (1 + ·)).map
          fun i => u32 (info.journalBlock + (u32 (desc + i) &&& (2 ^ k - 1))))
        = (copyIn (2 ^ k) desc t b).map fun pos => u32 (info.journalBlock + pos) := by
      rw [copyIn]
      cases t.idxOf? b with
      | none => rfl
      | some i => simp only [Option.map_some, found_eq hk]
    obtain ⟨hlt, hmark | ⟨hne, hword, hend, hheld, hrest⟩⟩ := htable
    · -- behind the marker: the block numbers come from the disk
      have hrun := ih table (nextDesc (2 ^ k) desc t)
        (((copyIn (2 ^ k) desc t b).map fun pos => u32 (info.journalBlock + pos)).getD translated)
        hlaid.2.2.2.2 (tableHolds_marker hlt hmark ts)
      simp only [List.length_cons, blockReadLoop, hmark, ne_eq, not_true_eq_false, if_false,
        hcount, hlen, hint, next_eq hk, searchDisk_spec hk hlaid, hcopy]
      refine ⟨hrun.1.trans (hfinal _), ?_⟩
      intro x hx
      rcases List.mem_cons.mp hx with rfl | hx
      · exact hlt
      · exact hrun.2 x hx
    · -- cached: they come from the table, which continues behind them
      obtain ⟨hidx, hptr, hreads⟩ :=
        searchCached_spec (b := b) t 0 (table + 1) hheld (Nat.zero_add _)
      have hrun := ih (table + 1 + t.length) (nextDesc (2 ^ k) desc t)
        (((copyIn (2 ^ k) desc t b).map fun pos => u32 (info.journalBlock + pos)).getD translated)
        hlaid.2.2.2.2 hrest
      simp only [List.length_cons, blockReadLoop, hne, ne_eq, not_false_eq_true, if_true,
        hcount, hword, hint, next_eq hk, hidx, hptr, Nat.zero_add, hcopy]
      refine ⟨hrun.1.trans (hfinal _), ?_⟩
      intro x hx
      rcases List.mem_cons.mp hx with rfl | hx
      · exact hlt
      · rcases List.mem_append.mp hx with hx | hx
        · have := hreads x hx
          omega
        · exact hrun.2 x hx

/-! ## §6 Where the table lies -/

/-- With the table filled up to `tableEnd`, every block is looked up right and no word at
or behind `tableEnd` is read. -/
def LookupCorrect (tableEnd : Nat) (journal : Nat → Words) (info : Info) (mem : Words)
    (txns : List Txn) : Prop :=
  let filled := cacheAll tableEnd info.journalBlockCount journal info.journalFirstDesc mem
    journalStart txns
  ∀ b < 2 ^ 32, (blockRead journal info filled b).1 = currentBlock info txns b
    ∧ ∀ x ∈ (blockRead journal info filled b).2, x < tableEnd

/-- With a table of one word or more the lookup is right. -/
theorem lookupCorrect_of_room {tableEnd : Nat} (hroom : journalStart < tableEnd)
    {journal : Nat → Words} {info : Info} {k : Nat} (hk : k < 32)
    (hcount : info.journalBlockCount = 2 ^ k) (mem : Words) {txns : List Txn}
    (hlaid : LaidOut journal (2 ^ k) info.journalFirstDesc txns)
    (htrans : info.journalTransactions = txns.length) :
    LookupCorrect tableEnd journal info mem txns := by
  intro b _
  have htable := cacheAll_holds txns info.journalFirstDesc mem journalStart hroom hlaid
  rw [← hcount] at htable
  have hspec := blockReadLoop_spec hk hcount b txns journalStart info.journalFirstDesc b
    hlaid htable
  simpa only [blockRead, currentBlock, htrans, hcount] using hspec

/-- Every turn of the search starts with a look at the table. -/
theorem table_read {journal : Nat → Words} {info : Info} {mem : Words} {b : Nat}
    (n table desc translated : Nat) :
    table ∈ (blockReadLoop journal info mem b (n + 1) table desc translated).2 := by
  simp only [blockReadLoop]
  split
  · exact List.mem_append_left _ List.mem_cons_self
  · exact List.mem_cons_self

/-- The lookup is right if the table has a word in the buffer, or is never needed. -/
theorem lookupCorrect_iff {tableEnd : Nat} {journal : Nat → Words} {info : Info} {k : Nat}
    (hk : k < 32) (hcount : info.journalBlockCount = 2 ^ k) (mem : Words) {txns : List Txn}
    (hlaid : LaidOut journal (2 ^ k) info.journalFirstDesc txns)
    (htrans : info.journalTransactions = txns.length) :
    LookupCorrect tableEnd journal info mem txns ↔ txns = [] ∨ journalStart < tableEnd := by
  constructor
  · intro h
    cases txns with
    | nil => exact .inl rfl
    | cons t ts =>
      have hread := (h 0 (by decide)).2 journalStart
      rw [blockRead, htrans, List.length_cons] at hread
      exact .inr (hread (table_read _ _ _ _))
  · rintro (rfl | hroom)
    · intro b _
      have htrans : info.journalTransactions = 0 := htrans
      simp [blockRead, blockReadLoop, htrans, currentBlock, lastCopy]
    · exact lookupCorrect_of_room hroom hk hcount mem hlaid htrans

/-- **The table has no room in `FSYS_BUF`**: with the buffer as it is declared the lookup
keeps inside it, and finds the current block, exactly if there is nothing to replay. -/
theorem blockRead_correct_iff (journal : Nat → Words) (info : Info) (k : Nat) (hk : k < 32)
    (hcount : info.journalBlockCount = 2 ^ k) (mem : Words) (txns : List Txn)
    (hlaid : LaidOut journal (2 ^ k) info.journalFirstDesc txns)
    (htrans : info.journalTransactions = txns.length) :
    LookupCorrect journalEnd journal info mem txns ↔ txns = [] := by
  have hnone : ¬ journalStart < journalEnd := by decide
  rw [lookupCorrect_iff hk hcount mem hlaid htrans]
  simp [hnone]

/-- A ring of eight blocks whose only transaction logs block 5: descriptor, copy and
commit block in blocks 0, 1 and 2. `id` and `last` are its id and the last flushed one,
as loaded. -/
def oneTxnJournal (id last : UInt32) : Nat → Words
  | 0 => fun i =>
    if i = 0 then id else if i = 1 then 0x01000000 else if i = 3 then 0x05000000
    else if i = 1021 then 0x52654973 else if i = 1022 then 0x45724c42 else 0
  | 2 => fun i => if i = 0 then id else if i = 1 then 0x01000000 else 0
  | 8 => fun i => if i = 0 then last else 0
  | _ => fun _ => 0

def oneTxnInfo : Info where
  journalBlock := 18
  journalBlockCount := 8
  journalFirstDesc := 0
  journalTransactions := 1

theorem oneTxnJournal_laidOut : LaidOut (oneTxnJournal 0x01000000 0) (2 ^ 3) 0 [[5]] :=
  ⟨by decide, by decide, ⟨by decide, trivial⟩, trivial, trivial⟩

/-- With zeros behind the buffer the copy in journal block 19 is missed. -/
theorem oneTxnJournal_missed :
    LaidOut (oneTxnJournal 0x01000000 0) (2 ^ 3) oneTxnInfo.journalFirstDesc [[5]]
      ∧ currentBlock oneTxnInfo [[5]] 5 = 19
      ∧ blockRead (oneTxnJournal 0x01000000 0) oneTxnInfo (fun _ => 0) 5 = (5, [7168])
      ∧ ¬ LookupCorrect journalEnd (oneTxnJournal 0x01000000 0) oneTxnInfo (fun _ => 0)
          [[5]] := by
  refine ⟨oneTxnJournal_laidOut, by decide, by decide, ?_⟩
  intro h
  have hmissed : (5 : Nat) = 19 := (h 5 (by decide)).1
  exact absurd hmissed (by decide)

theorem blockRead_correct_clean :
    LookupCorrect journalEnd (oneTxnJournal 0x01000000 0)
      { oneTxnInfo with journalTransactions := 0 } (fun _ => 0) [] :=
  (blockRead_correct_iff _ _ 3 (by decide) rfl _ [] trivial rfl).mpr rfl

end LiloBoot.ReiserFS
