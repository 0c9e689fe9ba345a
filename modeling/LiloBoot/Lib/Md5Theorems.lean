/-
LiloBoot.Lib.Md5Theorems — the code computes MD5.

§1 and §2: on a big-endian machine the swaps make the words of the RFC, and the four
variables of `md5_transform`, moved on by one place in each pass, are the registers
in the order that the RFC names them. §3 is the invariant of the static variables
(`Carries`), which `md5_update` keeps whatever the parts of the message; §4 the
padding. Together: `md5Run_eq`.
-/
import LiloBoot.Lib.Md5
import LiloBoot.Lib.Rfc1321

namespace LiloBoot.Md5

open BlockStream Rfc1321

/-! ## §1 Words -/

/-- Loaded and swapped, a word has its low-order byte first. -/
theorem le32ToCpu_loadWord (block : List UInt8) (i : Nat) :
    le32ToCpu (loadWord block i) = wordAt block i := by
  rw [le32ToCpu, loadWord, wordAt, wordOf]
  generalize (block.getD (4 * i) 0).toBitVec = b0
  generalize (block.getD (4 * i + 1) 0).toBitVec = b1
  generalize (block.getD (4 * i + 2) 0).toBitVec = b2
  generalize (block.getD (4 * i + 3) 0).toBitVec = b3
  apply BitVec.eq_of_getLsbD_eq
  intro k hk
  interval_cases k <;> simp

/-- The bytes of a swapped word. -/
theorem le32ToCpu_byte (x : UINT4) :
    ((le32ToCpu x >>> 24).setWidth 8 = x.setWidth 8)
      ∧ ((le32ToCpu x >>> 16).setWidth 8 = (x >>> 8).setWidth 8)
      ∧ ((le32ToCpu x >>> 8).setWidth 8 = (x >>> 16).setWidth 8)
      ∧ ((le32ToCpu x >>> 0).setWidth 8 = (x >>> 24).setWidth 8) := by
  rw [le32ToCpu]
  refine ⟨?_, ?_, ?_, ?_⟩ <;>
  · apply BitVec.eq_of_getLsbD_eq
    intro k hk
    interval_cases k <;> simp

theorem ofNat_toNat_setWidth (x : UINT4) : UInt8.ofNat x.toNat = UInt8.ofBitVec (x.setWidth 8) := by
  apply UInt8.toNat_inj.mp
  rw [UInt8.toNat_ofNat', UInt8.toNat_ofBitVec, BitVec.toNat_setWidth]

/-- A word that is swapped before it is stored has its low-order byte first. -/
theorem wordBytes_le32ToCpu (x : UINT4) : wordBytes (le32ToCpu x) = lowBytes 4 x.toNat := by
  obtain ⟨h0, h1, h2, h3⟩ := le32ToCpu_byte x
  have hbyte (k : Nat) : UInt8.ofNat (x.toNat / 256 ^ k) = UInt8.ofNat (x >>> (8 * k)).toNat := by
    rw [BitVec.toNat_ushiftRight, Nat.shiftRight_eq_div_pow, Nat.pow_mul]
  have hrange : List.range 4 = [0, 1, 2, 3] := rfl
  simp only [wordBytes, lowBytes, hrange, List.map_cons, List.map_nil, hbyte,
    ofNat_toNat_setWidth, h0, h1, h2, h3, Nat.mul_zero, Nat.mul_one, Nat.reduceMul]
  simp

theorem rotateLeft_eq {n : Nat} (h : n < 32) (x : UINT4) : rotateLeft x n = x.rotateLeft n := by
  rw [rotateLeft, BitVec.rotateLeft_def, Nat.mod_eq_of_lt h]

/-! ## §2 `md5_transform` -/

/-- The variables of the code before operation `n`: the registers as it names them. -/
def view (n : Nat) (regs : Registers) : State :=
  let (a, b, c, d) := named n regs
  ⟨a, b, c, d⟩

theorem first_succ (n : Nat) : first (n + 1) = first n + 3 := by
  apply Fin.ext
  simp only [first, Fin.ofNat, Fin.val_add]
  omega

/-- **A pass of the loop** is an operation of the round, and the variables move on. -/
theorem view_operation (r : Round) (t : Nat) (block : List UInt8) (regs : Registers) (n : Nat)
    (hs : r.s.getD (n % 4) 0 < 32) {x : UINT4}
    (hx : le32ToCpu x = wordAt block (r.k.getD n 0)) :
    view (n + 1) (operation r t block regs n)
      = roundStep r.f (r.s.getD (n % 4) 0) x (Rfc1321.T (n + t)) (view n regs) := by
  have hplaces : ∀ a : Fin 4, a + 3 + 1 = a ∧ a + 3 + 2 = a + 1 ∧ a + 3 + 3 = a + 2 := by decide
  have hne : ∀ a : Fin 4, a.val ≠ (a + 3).val ∧ a.val ≠ (a + 1).val ∧ a.val ≠ (a + 2).val := by
    decide
  obtain ⟨h1, h2, h3⟩ := hplaces (first n)
  obtain ⟨hn3, hn1, hn2⟩ := hne (first n)
  simp only [view, named, first_succ, h1, h2, h3, operation, roundStep, hx, rotateLeft_eq hs, Fin.getElem_fin,
    Vector.getElem_set, if_neg hn3, if_neg hn1, if_neg hn2, if_true, State.mk.injEq, true_and, and_true]
  exact BitVec.add_comm _ _

/-- A round of the code is a round of the RFC, if its table rows are. -/
theorem view_round {r : Round} {s : List Nat} {j0 jstep t : Nat} (block : List UInt8)
    (regs : Registers) (hs : r.s = s) (hs32 : ∀ n < 4, s.getD n 0 < 32)
    (hk : ∀ n < 16, r.k.getD n 0 = (j0 + jstep * n) &&& 15)
    (ht : ∀ n < 16, Rfc1321.T (n + t) = T.getD (n + t) 0) :
    view 0 (r.run t block regs) = round r.f s j0 jstep t block (view 0 regs) := by
  have hrun : ∀ m ≤ 16, view m ((List.range m).foldl (operation r t block) regs)
      = (List.range m).foldl (fun q i => roundStep r.f (s.getD (i &&& 3) 0)
        (loadWord block ((j0 + jstep * i) &&& 15)) (T.getD (i + t) 0) q) (view 0 regs) := by
    intro m
    induction m with
    | zero =>
      intro _
      rfl
    | succ m ih =>
      intro hm
      have hand : m &&& 3 = m % 4 := Nat.and_two_pow_sub_one_eq_mod m 2
      rw [List.range_succ, List.foldl_append, List.foldl_append, List.foldl_cons, List.foldl_nil,
        List.foldl_cons, List.foldl_nil, ← ih (by omega), hand, ← ht m (by omega), ← hs]
      refine view_operation r t block _ m ?_ ?_
      · rw [hs]
        exact hs32 _ (Nat.mod_lt m (by decide))
      · rw [le32ToCpu_loadWord, hk m (by omega)]
  exact hrun 16 (Nat.le_refl 16)

/-- The registers as the code keeps them. -/
def ofRegisters (regs : Registers) : State := view 0 regs

/-- **`md5_transform`** is the function of the RFC on a block. -/
theorem md5Transform_eq (regs : Registers) (block : List UInt8) :
    ofRegisters (compress regs block) = md5Transform (ofRegisters regs) block := by
  have h1 := @view_round round1 s1 0 1 0 block regs rfl (by decide) (by decide) (by decide)
  have h2 := @view_round round2 s2 1 5 16 block (round1.run 0 block regs) rfl (by decide)
    (by decide) (by decide)
  have h3 := @view_round round3 s3 5 3 32 block
    (round2.run 16 block (round1.run 0 block regs)) rfl (by decide) (by decide) (by decide)
  have h4 := @view_round round4 s4 0 7 48 block
    (round3.run 32 block (round2.run 16 block (round1.run 0 block regs))) rfl (by decide)
    (by decide) (by decide)
  have hrounds : round I s4 0 7 48 block (round H s3 5 3 32 block
      (round G s2 1 5 16 block (round F s1 0 1 0 block (view 0 regs))))
      = view 0 (round4.run 48 block (round3.run 32 block (round2.run 16 block
        (round1.run 0 block regs)))) :=
    (h4.trans (congrArg (round I s4 0 7 48 block) (h3.trans (congrArg (round H s3 5 3 32 block)
      (h2.trans (congrArg (round G s2 1 5 16 block) h1)))))).symm
  rw [md5Transform]
  simp only [ofRegisters, hrounds]
  simp [compress, view, named, first]

/-! ## §3 `md5_update` -/

/-- **The invariant**: `state` is what the whole blocks of the message have made, `buffer` begins
with what is left over. -/
structure Carries (m : Statics) (message : List UInt8) : Prop where
  state : m.state = ofRegisters (absorb 64 compress initial message).1
  length : m.length = u32 message.length
  size : m.buffer.length = 64
  rest : m.buffer.take (message.length % 64) = (absorb 64 compress initial message).2

theorem memcpy_length {buffer bytes : List UInt8} {pos : Nat}
    (h : pos + bytes.length ≤ buffer.length) :
    (memcpy buffer pos bytes).length = buffer.length := by
  rw [memcpy, List.length_append, List.length_append, List.length_take, List.length_drop]
  omega

/-- Up to the end of what was copied. -/
theorem memcpy_take {buffer bytes : List UInt8} {pos : Nat} (h : pos ≤ buffer.length) :
    (memcpy buffer pos bytes).take (pos + bytes.length) = buffer.take pos ++ bytes := by
  rw [memcpy]
  apply List.take_left'
  rw [List.length_append, List.length_take, Nat.min_eq_left h]

/-- A copy that goes to the end of the buffer. -/
theorem memcpy_end {buffer bytes : List UInt8} {pos : Nat}
    (h : pos + bytes.length = buffer.length) :
    memcpy buffer pos bytes = buffer.take pos ++ bytes := by
  rw [memcpy, List.drop_of_length_le (Nat.le_of_eq h.symm), List.append_nil]

theorem updateLoop_eq (state : State) (input : List UInt8) :
    updateLoop state input = absorb 64 md5Transform state input := by
  induction hn : input.length using Nat.strong_induction_on generalizing state input with
  | _ n ih =>
    rw [updateLoop, absorb]
    split
    · exact ih (input.drop 64).length (by rw [List.length_drop]; omega) _ _ rfl
    · rfl

theorem Carries.buflen {m : Statics} {message : List UInt8} (h : Carries m message) :
    m.length &&& 63 = message.length % 64 := by
  have hand : m.length &&& 63 = m.length % 64 := Nat.and_two_pow_sub_one_eq_mod _ 6
  rw [hand, h.length, u32]
  omega

theorem carries_init {m : Statics} (h : m.buffer.length = 64) : Carries (md5Init m) [] where
  state := by
    rw [absorb_of_lt (by decide)]
    rfl
  length := rfl
  size := h
  rest := by
    rw [absorb_of_lt (by decide)]
    rfl

/-- **`md5_update`** appends to the message, however it is split. -/
theorem Carries.update {m : Statics} {message : List UInt8} (h : Carries m message)
    (input : List UInt8) : Carries (md5Update m input) (message ++ input) := by
  have hsnd : (absorb 64 compress initial message).2.length = message.length % 64 :=
    absorb_snd_length _ _
  have hparts : absorb 64 compress initial (message ++ input)
      = absorb 64 compress (absorb 64 compress initial message).1
        ((absorb 64 compress initial message).2 ++ input) := absorb_append _ _ _
  have hsndnew : (absorb 64 compress initial (message ++ input)).2.length
      = (message ++ input).length % 64 := absorb_snd_length _ _
  have hlength : u32 (m.length + input.length) = u32 (message ++ input).length := by
    rw [h.length, List.length_append, u32, u32, u32, Nat.mod_add_mod]
  have hmod : message.length % 64 < 64 := Nat.mod_lt _ (by decide)
  have hsize := h.size
  have hrest := h.rest
  rw [List.length_append] at hsndnew
  rw [md5Update]
  simp only [h.buflen]
  split
  · rename_i hlt
    have hshort : ((absorb 64 compress initial message).2 ++ input).length < 64 := by
      rw [List.length_append, hsnd]
      exact hlt
    rw [absorb_of_lt hshort] at hparts
    have hnew : (message.length + input.length) % 64 = message.length % 64 + input.length := by
      omega
    refine ⟨?_, hlength, ?_, ?_⟩
    · rw [hparts]
      exact h.state
    · rw [memcpy_length (by omega), hsize]
    · rw [hparts, List.length_append, hnew, memcpy_take (by omega), hrest]
  · rename_i hge
    have htake : (input.take (64 - message.length % 64)).length = 64 - message.length % 64 := by
      rw [List.length_take]
      omega
    have hblock : memcpy m.buffer (message.length % 64) (input.take (64 - message.length % 64))
        = (absorb 64 compress initial message).2 ++ input.take (64 - message.length % 64) := by
      rw [memcpy_end (by omega), hrest]
    have hblocklen : ((absorb 64 compress initial message).2
        ++ input.take (64 - message.length % 64)).length = 64 := by
      rw [List.length_append, hsnd, htake]
      omega
    have hsplit : (absorb 64 compress initial message).2 ++ input
        = ((absorb 64 compress initial message).2 ++ input.take (64 - message.length % 64))
          ++ input.drop (64 - message.length % 64) := by
      rw [List.append_assoc, List.take_append_drop]
    rw [hsplit, absorb_block hblocklen] at hparts
    have hloop := @absorb_map _ _ _ 64 _ compress md5Transform ofRegisters md5Transform_eq
      (compress (absorb 64 compress initial message).1 ((absorb 64 compress initial message).2
        ++ input.take (64 - message.length % 64))) (input.drop (64 - message.length % 64))
    rw [← hparts, md5Transform_eq] at hloop
    simp only [hblock, h.state, updateLoop_eq, hloop]
    have hleft : (absorb 64 compress initial (message ++ input)).2.length ≤ 64 := by omega
    refine ⟨rfl, hlength, ?_, ?_⟩
    · rw [memcpy_length (by omega), hblocklen]
    · have hcopy := @memcpy_take ((absorb 64 compress initial message).2
        ++ input.take (64 - message.length % 64))
        (absorb 64 compress initial (message ++ input)).2 0 (Nat.zero_le _)
      rw [Nat.zero_add, hsndnew, List.take_zero, List.nil_append] at hcopy
      rw [List.length_append, hcopy]

/-- All parts of a message. -/
theorem Carries.foldl (inputs : List (List UInt8)) {m : Statics} {message : List UInt8}
    (h : Carries m message) : Carries (inputs.foldl md5Update m) (message ++ inputs.flatten) := by
  induction inputs generalizing m message with
  | nil =>
    rw [List.flatten_nil, List.append_nil]
    exact h
  | cons input inputs ih =>
    rw [List.foldl_cons, List.flatten_cons, ← List.append_assoc]
    exact ih (h.update input)

/-! ## §4 `md5_final` -/

/-- Length and zero words at the end of a block. -/
theorem memcpy_lengthWords {front rest word : List UInt8} (hfront : front.length = 56)
    (hrest : rest.length = 8) (hword : word.length = 4) :
    memcpy (memcpy (front ++ rest) 56 word) 60 (wordBytes 0)
      = front ++ (word ++ [0, 0, 0, 0]) := by
  have hsplit : rest = rest.take 4 ++ rest.drop 4 := (List.take_append_drop 4 rest).symm
  have hfirst : memcpy (front ++ rest) 56 word = (front ++ word) ++ rest.drop 4 := by
    rw [memcpy, hword, List.take_left' hfront, List.drop_append, hfront,
      List.drop_of_length_le (by omega), List.nil_append]
  have hzero : wordBytes 0 = [0, 0, 0, 0] := by decide
  rw [hfirst, memcpy_end (by
    rw [hzero, List.length_append, List.length_append, List.length_drop, hfront, hword, hrest]
    rfl), List.take_left' (by rw [List.length_append, hfront, hword]), hzero, List.append_assoc]

theorem lowBytes_length (n value : Nat) : (lowBytes n value).length = n := by
  rw [lowBytes, List.length_map, List.length_range]

/-- A length below 2^32 in 8 bytes. -/
theorem lowBytes_eight {value : Nat} (h : value < 2 ^ 32) :
    lowBytes 8 value = lowBytes 4 value ++ [0, 0, 0, 0] := by
  have hzero (k : Nat) (hk : 2 ^ 32 ≤ 256 ^ k) : UInt8.ofNat (value / 256 ^ k) = 0 := by
    rw [Nat.div_eq_of_lt (by omega)]
    rfl
  have hfour : List.range 4 = [0, 1, 2, 3] := rfl
  have height : List.range 8 = [0, 1, 2, 3, 4, 5, 6, 7] := rfl
  simp only [lowBytes, hfour, height, List.map_cons, List.map_nil, List.cons_append,
    List.nil_append, hzero 4 (by decide), hzero 5 (by decide), hzero 6 (by decide),
    hzero 7 (by decide)]

/-- The padding where it takes one block more than the message. -/
theorem absorb_padding_long {rest words : List UInt8} (regs : Registers)
    (hlong : 56 ≤ rest.length) (hrest : rest.length < 64) (hwords : words.length = 8) :
    absorb 64 compress regs (rest ++ (0x80 :: List.replicate ((119 - rest.length) % 64) 0 ++ words))
      = (compress (compress regs (rest ++ 0x80 :: List.replicate (63 - rest.length) 0))
          (List.replicate 56 0 ++ words), []) := by
  have hcount : (119 - rest.length) % 64 = 63 - rest.length + 56 := by omega
  have hblock : (rest ++ 0x80 :: List.replicate (63 - rest.length) 0).length = 64 := by
    rw [List.length_append, List.length_cons, List.length_replicate]
    omega
  have hlast : (List.replicate 56 0 ++ words).length = 64 := by
    rw [List.length_append, List.length_replicate, hwords]
  have hsplit : rest ++ (0x80 :: List.replicate (63 - rest.length + 56) 0 ++ words)
      = (rest ++ 0x80 :: List.replicate (63 - rest.length) 0)
        ++ ((List.replicate 56 0 ++ words) ++ []) := by
    rw [List.replicate_add]
    simp
  rw [hcount, hsplit, absorb_block hblock, absorb_block hlast, absorb_of_lt (by decide)]

/-- The padding where it fits into the last block of the message. -/
theorem absorb_padding_short {rest words : List UInt8} (regs : Registers)
    (hshort : rest.length < 56) (hwords : words.length = 8) :
    absorb 64 compress regs (rest ++ (0x80 :: List.replicate ((119 - rest.length) % 64) 0 ++ words))
      = (compress regs (rest ++ 0x80 :: List.replicate (55 - rest.length) 0 ++ words), []) := by
  have hcount : (119 - rest.length) % 64 = 55 - rest.length := by omega
  have hblock : (rest ++ 0x80 :: List.replicate (55 - rest.length) 0 ++ words).length = 64 := by
    rw [List.length_append, List.length_append, List.length_cons, List.length_replicate, hwords]
    omega
  have hsplit : rest ++ (0x80 :: List.replicate (55 - rest.length) 0 ++ words)
      = (rest ++ 0x80 :: List.replicate (55 - rest.length) 0 ++ words) ++ [] := by
    simp
  rw [hcount, hsplit, absorb_block hblock, absorb_of_lt (by decide)]

/-- The buffer after the one bit and zeros up to its end. -/
theorem Carries.padded {m : Statics} {message : List UInt8} (h : Carries m message) :
    memcpy (memcpy m.buffer (message.length % 64) [0x80]) (message.length % 64 + 1)
        (List.replicate (64 - (message.length % 64 + 1)) 0)
      = (absorb 64 compress initial message).2
        ++ 0x80 :: List.replicate (63 - message.length % 64) 0 := by
  have hmod : message.length % 64 < 64 := Nat.mod_lt _ (by decide)
  have hsize := h.size
  have hone := @memcpy_take m.buffer [0x80] (message.length % 64) (by omega)
  have hcount : 64 - (message.length % 64 + 1) = 63 - message.length % 64 := by omega
  rw [List.length_singleton, h.rest] at hone
  rw [memcpy_end (by
    rw [memcpy_length (by rw [List.length_singleton]; omega), List.length_replicate]
    omega), hone, List.append_assoc, hcount]
  rfl

/-- The words that `md5_final` gives are the registers, each with its low-order byte first. -/
theorem wordBytes_ofRegisters (regs : Registers) :
    wordBytes (le32ToCpu (ofRegisters regs).a) ++ wordBytes (le32ToCpu (ofRegisters regs).b)
        ++ wordBytes (le32ToCpu (ofRegisters regs).c) ++ wordBytes (le32ToCpu (ofRegisters regs).d)
      = regs.toList.flatMap fun x => lowBytes 4 x.toNat := by
  simp only [wordBytes_le32ToCpu, ofRegisters, view, named]
  obtain ⟨⟨l⟩, hl⟩ := regs
  match l, hl with
  | [a, b, c, d], _ => simp [first]

/-- **`md5_final`** gives the digest of the message, if its length in bits is below 2^32. -/
theorem Carries.final {m : Statics} {message : List UInt8} (h : Carries m message)
    (hlen : message.length < 2 ^ 29) : (md5Final m).2 = digest message := by
  have hsnd : (absorb 64 compress initial message).2.length = message.length % 64 :=
    absorb_snd_length _ _
  have hlength : m.length = message.length := by
    rw [h.length, u32_of_lt (by omega)]
  have hword : wordBytes (le32ToCpu (BitVec.ofNat 32 (8 * message.length)))
      = lowBytes 4 (8 * message.length) := by
    rw [wordBytes_le32ToCpu, BitVec.toNat_ofNat, Nat.mod_eq_of_lt (by omega)]
  have hwords : (lowBytes 4 (8 * message.length) ++ [0, 0, 0, 0]).length = 8 := by
    rw [List.length_append, lowBytes_length]
    rfl
  have hpadded := h.padded
  have hregs := h.state
  have hbuflen := h.buflen
  rw [← hsnd] at hpadded hbuflen
  generalize hs : absorb 64 compress initial message = carried at *
  obtain ⟨regs, rest⟩ := carried
  simp only at hsnd hpadded hregs hbuflen
  have hrest : rest.length < 64 := by
    rw [hsnd]
    exact Nat.mod_lt _ (by decide)
  have hpad : absorb 64 compress initial (pad message) = absorb 64 compress regs
      (rest ++ (0x80 :: List.replicate ((119 - rest.length) % 64) 0
        ++ (lowBytes 4 (8 * message.length) ++ [0, 0, 0, 0]))) := by
    rw [pad, List.append_assoc, absorb_append, hs, lowBytes_eight (by omega), hsnd]
  -- the last block, and the state before it
  obtain ⟨regs', front, hfront, hlast, hstate⟩ : ∃ regs' front, front.length = 56
      ∧ absorb 64 compress initial (pad message) = (compress regs'
        (front ++ (lowBytes 4 (8 * message.length) ++ [0, 0, 0, 0])), [])
      ∧ (if 56 < rest.length + 1 then
          (md5Transform m.state (rest ++ 0x80 :: List.replicate (63 - rest.length) 0),
            memcpy (rest ++ 0x80 :: List.replicate (63 - rest.length) 0) 0 (List.replicate 64 0))
        else (m.state, rest ++ 0x80 :: List.replicate (63 - rest.length) 0))
        = (ofRegisters regs', front ++ List.replicate 8 0) := by
    by_cases hlong : 56 < rest.length + 1
    · refine ⟨compress regs (rest ++ 0x80 :: List.replicate (63 - rest.length) 0),
        List.replicate 56 0, List.length_replicate, ?_, ?_⟩
      · rw [hpad, absorb_padding_long regs (by omega) hrest hwords]
      · have hblock : 0 + (List.replicate 64 (0 : UInt8)).length
            = (rest ++ 0x80 :: List.replicate (63 - rest.length) 0).length := by
          rw [List.length_append, List.length_cons, List.length_replicate, List.length_replicate]
          omega
        rw [if_pos hlong, hregs, ← md5Transform_eq, memcpy_end hblock]
        rfl
    · have hzeros : List.replicate (63 - rest.length) (0 : UInt8)
          = List.replicate (55 - rest.length) 0 ++ List.replicate 8 0 := by
        rw [List.replicate_append_replicate]
        congr 1
        omega
      refine ⟨regs, rest ++ 0x80 :: List.replicate (55 - rest.length) 0, ?_, ?_, ?_⟩
      · rw [List.length_append, List.length_cons, List.length_replicate]
        omega
      · rw [hpad, absorb_padding_short regs (by omega) hwords]
      · rw [if_neg hlong, hregs, hzeros, List.append_assoc, List.cons_append]
  rw [md5Final]
  simp only [hbuflen]
  simp only [hpadded, hstate, hlength, hword]
  rw [memcpy_lengthWords hfront List.length_replicate (lowBytes_length 4 _), ← md5Transform_eq,
    wordBytes_ofRegisters, digest, hlast]

/-- **MD5 of a message in parts** is the digest of RFC 1321 of the whole, whatever the static
variables held before. -/
theorem md5Run_digest {m : Statics} (hm : m.buffer.length = 64) (inputs : List (List UInt8))
    (hlen : inputs.flatten.length < 2 ^ 29) : (md5Run m inputs).2 = digest inputs.flatten :=
  ((carries_init hm).foldl inputs).final hlen

theorem md5Run_eq (m : { m : Statics // m.buffer.length = 64 })
    (inputs : { inputs : List (List UInt8) // inputs.flatten.length < 2 ^ 29 }) :
    (md5Run m.val inputs.val).2 = digest inputs.val.flatten :=
  md5Run_digest m.property inputs.val inputs.property

/-- The test of `abc` that `main` makes. -/
example : (md5sum ⟨initstate, 0, List.replicate 64 0⟩ [97, 98, 99]).2
    = [0x90, 0x01, 0x50, 0x98, 0x3c, 0xd2, 0x4f, 0xb0, 0xd6, 0x96, 0x3f,
      0x7d, 0x28, 0xe1, 0x7f, 0x72] := by
  decide +kernel

end LiloBoot.Md5
