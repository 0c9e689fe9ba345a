/-
LiloBoot.Lib.Md5PasswordTheorems — when the check accepts what crypt mode makes.

§1: what `md5_password` computes does not depend on what the static variables held.
§2 is the comparison, §3 what the two modes do with a salt that a `$` closes. They
find its length differently: check mode takes all up to the `$`, crypt mode 8
characters at most, and where there is no `$` check mode subtracts from NULL
(`md5Password_iff`).
-/
import LiloBoot.Lib.Md5Password
import LiloBoot.Lib.Md5Theorems

namespace LiloBoot.Md5

/-! ## §1 The static variables -/

/-- The digest depends on the message alone. -/
theorem Carries.final_eq {m m' : Statics} {message : List UInt8} (h : Carries m message)
    (h' : Carries m' message) : (md5Final m).2 = (md5Final m').2 := by
  have hmod : message.length % 64 < 64 := Nat.mod_lt _ (by decide)
  have hbuffer {m : Statics} (h : Carries m message) :
      memcpy (memcpy m.buffer (message.length % 64) [0x80]) (message.length % 64 + 1)
        (List.replicate (64 - (message.length % 64 + 1)) 0)
      = (BlockStream.absorb 64 Rfc1321.compress Rfc1321.initial message).2 ++ [0x80]
        ++ List.replicate (64 - (message.length % 64 + 1)) 0 := by
    have hsize := h.size
    have hone := @memcpy_take m.buffer [0x80] (message.length % 64) (by omega)
    rw [List.length_singleton, h.rest] at hone
    rw [memcpy_end (by rw [memcpy_length (by rw [List.length_singleton]; omega),
      List.length_replicate]; omega), hone]
  simp only [md5Final, h.buflen, h'.buflen]
  simp only [hbuffer h, hbuffer h', h.state, h'.state, h.length, h'.length]

/-- `md5_final` leaves a buffer of 64 bytes. -/
theorem md5Final_buffer {m : Statics} (h : m.buffer.length = 64) :
    (md5Final m).1.buffer.length = 64 := by
  have hand : m.length &&& 63 = m.length % 64 := Nat.and_two_pow_sub_one_eq_mod _ 6
  have hmod : m.length % 64 < 64 := Nat.mod_lt _ (by decide)
  have hword (x : UINT4) : (wordBytes x).length = 4 := rfl
  have hone : (memcpy m.buffer (m.length % 64) [0x80]).length = 64 := by
    rw [memcpy_length (by rw [List.length_singleton]; omega), h]
  have hzeros : (memcpy (memcpy m.buffer (m.length % 64) [0x80]) (m.length % 64 + 1)
      (List.replicate (64 - (m.length % 64 + 1)) 0)).length = 64 := by
    rw [memcpy_length (by rw [List.length_replicate]; omega), hone]
  have hlength {buffer : List UInt8} (hb : buffer.length = 64) (x y : UINT4) :
      (memcpy (memcpy buffer 56 (wordBytes x)) 60 (wordBytes y)).length = 64 := by
    have hfirst : (memcpy buffer 56 (wordBytes x)).length = 64 := by
      rw [memcpy_length (by rw [hword]; omega), hb]
    rw [memcpy_length (by rw [hword]; omega), hfirst]
  have hagain : (memcpy (memcpy (memcpy m.buffer (m.length % 64) [0x80]) (m.length % 64 + 1)
      (List.replicate (64 - (m.length % 64 + 1)) 0)) 0 (List.replicate 64 0)).length = 64 := by
    rw [memcpy_length (by rw [List.length_replicate]; omega), hzeros]
  simp only [md5Final, hand]
  split
  · exact hlength hagain _ _
  · exact hlength hzeros _ _

/-- What a run leaves and gives does not depend on the static variables before it. -/
theorem md5Run_indep {m m' : Statics} (h : m.buffer.length = 64) (h' : m'.buffer.length = 64)
    (inputs : List (List UInt8)) : (md5Run m inputs).2 = (md5Run m' inputs).2 :=
  ((carries_init h).foldl inputs).final_eq ((carries_init h').foldl inputs)

theorem md5Run_buffer {m : Statics} (h : m.buffer.length = 64) (inputs : List (List UInt8)) :
    (md5Run m inputs).1.buffer.length = 64 :=
  md5Final_buffer ((carries_init h).foldl inputs).size

theorem cryptDigest_indep {m m' : Statics} (h : m.buffer.length = 64)
    (h' : m'.buffer.length = 64) (key salt header : List UInt8) :
    (cryptDigest m key salt header).2 = (cryptDigest m' key salt header).2 := by
  have hpasses (passes : List Nat) : ∀ {st st' : Statics × List UInt8},
      st.1.buffer.length = 64 → st'.1.buffer.length = 64 → st.2 = st'.2 →
      (passes.foldl (fun st i => md5Run st.1 (roundInputs key salt st.2 i)) st).2
        = (passes.foldl (fun st i => md5Run st.1 (roundInputs key salt st.2 i)) st').2 := by
    induction passes with
    | nil => exact fun _ _ heq => heq
    | cons i passes ih =>
      intro st st' hst hst' heq
      rw [List.foldl_cons, List.foldl_cons]
      refine ih (md5Run_buffer hst _) (md5Run_buffer hst' _) ?_
      rw [heq]
      exact md5Run_indep hst hst' _
  rw [cryptDigest, cryptDigest]
  refine hpasses _ (md5Run_buffer (md5Run_buffer h _) _) (md5Run_buffer (md5Run_buffer h' _) _) ?_
  rw [md5Run_indep h h']
  exact md5Run_indep (md5Run_buffer h _) (md5Run_buffer h' _) _

/-! ## §2 The comparison -/

theorem encode_length (digest : List UInt8) : (encode digest).length = 22 := by
  simp [encode, encodeWord]

/-- A digit is not a NUL. -/
theorem encode_ne_zero (digest : List UInt8) : 0 ∉ encode digest := by
  have hdigit : ∀ i < 64, b64t.getD i 0 ≠ 0 := by decide +kernel
  have hword (w n : Nat) : 0 ∉ encodeWord w n := by
    intro h
    obtain ⟨k, _, hk⟩ := List.mem_map.mp h
    have hlt : (w >>> (6 * k)) &&& 0x3f < 64 := Nat.lt_succ_of_le Nat.and_le_right
    exact hdigit _ hlt hk
  intro h
  rcases List.mem_append.mp h with h | h
  · obtain ⟨i, _, hi⟩ := List.mem_flatMap.mp h
    exact hword _ _ hi
  · exact hword _ _ h

/-- The comparison ends within the string, with 0 exactly if the digits are all that is left. -/
theorem checkLoop_spec (digits : List UInt8) : ∀ {front rest : List UInt8}, 0 ∉ digits →
    0 ∉ rest → ∃ r, checkLoop (front ++ rest) front.length digits = some r
      ∧ (r = 0 ↔ rest = digits) := by
  induction digits with
  | nil =>
    intro front rest _ hrest
    cases rest with
    | nil =>
      refine ⟨0, ?_, by simp⟩
      simp [checkLoop, byteAt]
    | cons b rest =>
      refine ⟨b.toNat, ?_, ?_⟩
      · simp [checkLoop, byteAt]
      · have hb : b ≠ 0 := fun h => hrest (by rw [h]; exact List.mem_cons_self)
        refine ⟨fun h => absurd (UInt8.toNat_inj.mp h) hb, fun h => by cases h⟩
  | cons c digits ih =>
    intro front rest hdigits hrest
    rw [List.mem_cons, not_or] at hdigits
    cases rest with
    | nil =>
      refine ⟨1, ?_, by simp⟩
      have hbyte : byteAt (front ++ []) front.length = some 0 := by simp [byteAt]
      rw [checkLoop, hbyte]
      simp only
      rw [if_pos hdigits.1]
    | cons b rest =>
      rw [List.mem_cons, not_or] at hrest
      have hbyte : byteAt (front ++ b :: rest) front.length = some b := by simp [byteAt]
      rw [checkLoop, hbyte]
      simp only
      by_cases hb : b = c
      · obtain ⟨r, hr, hiff⟩ := @ih (front ++ [b]) rest hdigits.2 hrest.2
        have hsplit : front ++ [b] ++ rest = front ++ b :: rest := by simp
        rw [hsplit, List.length_append, List.length_singleton] at hr
        refine ⟨r, by rw [if_neg (fun h => h hb)]; exact hr, ?_⟩
        rw [hiff, hb, List.cons.injEq, and_iff_right rfl]
      · refine ⟨1, by rw [if_pos hb], ?_⟩
        rw [List.cons.injEq]
        exact ⟨fun h => absurd h (by decide), fun h => absurd h.1 hb⟩

/-! ## §3 The two modes -/

/-- A salt: no `$` and no NUL. -/
abbrev Salt := { salt : List UInt8 // dollar ∉ salt ∧ 0 ∉ salt }

theorem dollarAt_closed {salt : List UInt8} (h : dollar ∉ salt) (text : List UInt8) :
    dollarAt (salt ++ dollar :: text) = some salt.length := by
  induction salt with
  | nil => rfl
  | cons b salt ih =>
    rw [List.mem_cons, not_or] at h
    have hb : (b == dollar) = false := by
      rw [beq_eq_false_iff_ne]
      exact fun heq => h.1 heq.symm
    have hrest := ih h.2
    rw [dollarAt] at hrest ⊢
    rw [List.cons_append, List.findIdx?_cons, hb, hrest]
    rfl

theorem dollarAt_open {salt : List UInt8} (h : dollar ∉ salt) : dollarAt salt = none := by
  rw [dollarAt, List.findIdx?_eq_none_iff]
  intro b hb
  rw [beq_eq_false_iff_ne]
  rintro rfl
  exact h hb

/-- A length that is one of bytes of the string. -/
theorem bytesAt_nat {s : List UInt8} {pos n : Nat} (hn : n < 2 ^ 32) (h : pos + n ≤ s.length) :
    bytesAt s pos n = some ((s.drop pos).take n) := by
  have hmod : ((n : Int) % 2 ^ 32).toNat = n := by omega
  rw [bytesAt]
  simp only [hmod]
  rw [if_pos (by omega), List.drop_append_of_le_length (by omega),
    List.take_append_of_le_length (by rw [List.length_drop]; omega)]

/-- The digits that check mode compares with. -/
def PasswordCalls.digits (c : PasswordCalls) (salt : List UInt8) : List UInt8 :=
  encode (cryptDigest c.checkStatics c.key salt (magic ++ salt)).2

/-- **Check mode** with a `$`: 0 exactly if the text behind it is the digits. -/
theorem md5PasswordCheck_closed (c : PasswordCalls) (salt : Salt) {text : List UInt8}
    (htext : 0 ∉ text) (hlen : salt.val.length < 2 ^ 31) (addr : Nat) :
    ∃ r, md5PasswordCheck c.checkStatics c.key (magic ++ (salt.val ++ dollar :: text)) addr = some r
      ∧ (r = 0 ↔ text = c.digits salt.val) := by
  obtain ⟨salt, hdollar, hnul⟩ := salt
  have hdrop : (magic ++ (salt ++ dollar :: text)).drop 3 = salt ++ dollar :: text := rfl
  have htotal : (magic ++ (salt ++ dollar :: text)).length = 3 + (salt.length + (text.length + 1)) :=
    by rw [List.length_append, List.length_append, List.length_cons]; rfl
  have hsalt : bytesAt (magic ++ (salt ++ dollar :: text)) 3 (salt.length : Int) = some salt := by
    rw [bytesAt_nat (by simp only at hlen; omega) (by omega), hdrop, List.take_left]
  have hheader : bytesAt (magic ++ (salt ++ dollar :: text)) 0 (3 + (salt.length : Int))
      = some (magic ++ salt) := by
    have hcast : (3 : Int) + (salt.length : Int) = ((3 + salt.length : Nat) : Int) := by omega
    rw [hcast, bytesAt_nat (by simp only at hlen; omega) (by omega), List.drop_zero,
      ← List.append_assoc]
    congr 1
    apply List.take_left'
    rw [List.length_append]
    rfl
  have hfront : (magic ++ (salt ++ [dollar])).length = 3 + (salt.length : Int).toNat + 1 := by
    rw [List.length_append, List.length_append, Int.toNat_natCast, Nat.add_assoc]
    rfl
  have hsplit : magic ++ (salt ++ [dollar]) ++ text = magic ++ (salt ++ dollar :: text) := by simp
  obtain ⟨r, hr, hiff⟩ := @checkLoop_spec (c.digits salt) (magic ++ (salt ++ [dollar])) text
    (encode_ne_zero _) htext
  rw [hsplit, hfront] at hr
  refine ⟨r, ?_, hiff⟩
  rw [md5PasswordCheck, hdrop, dollarAt_closed hdollar]
  simp only [hsalt, hheader]
  exact hr

/-- **Crypt mode** of a salt of at most 8 characters. -/
theorem cString_md5PasswordCrypt (c : PasswordCalls) (salt : Salt) (hlen : salt.val.length ≤ 8) :
    cString (md5PasswordCrypt c.cryptStatics c.key (magic ++ (salt.val ++ [dollar])) c.behind)
      = magic ++ (salt.val ++ dollar :: c.digits salt.val) := by
  obtain ⟨salt, hdollar, hnul⟩ := salt
  simp only at hlen ⊢
  have hdrop : (magic ++ (salt ++ [dollar])).drop 3 = salt ++ [dollar] := rfl
  have hsaltlen : (if salt.length < 8 then salt.length else 8) = salt.length := by
    split <;> omega
  have harray : (magic ++ (salt ++ [dollar]) ++ 0 :: c.behind).set (3 + salt.length) dollar
      = magic ++ salt ++ dollar :: 0 :: c.behind := by
    have hsplit : magic ++ (salt ++ [dollar]) ++ 0 :: c.behind
        = magic ++ salt ++ dollar :: 0 :: c.behind := by simp
    have hlength : (magic ++ salt).length = 3 + salt.length := by
      rw [List.length_append]
      rfl
    rw [hsplit, ← hlength, List.set_append_right _ _ (Nat.le_refl _), Nat.sub_self, List.set_cons_zero]
  have hdigest : (cryptDigest c.cryptStatics c.key salt (magic ++ salt)).2
      = (cryptDigest c.checkStatics c.key salt (magic ++ salt)).2 :=
    cryptDigest_indep c.cryptBuffer c.checkBuffer _ _ _
  have hfront : 0 ∉ magic ++ (salt ++ dollar :: c.digits salt) := by
    rw [List.mem_append, List.mem_append, List.mem_cons, not_or, not_or, not_or]
    exact ⟨by decide, hnul, by decide, encode_ne_zero _⟩
  simp only [md5PasswordCrypt, hdrop, dollarAt_closed hdollar, hsaltlen, harray]
  have hsaltbytes : ((magic ++ salt ++ dollar :: 0 :: c.behind).drop 3).take salt.length = salt := by
    have hdrop : (magic ++ salt ++ dollar :: 0 :: c.behind).drop 3
        = salt ++ dollar :: 0 :: c.behind := rfl
    rw [hdrop, List.take_left]
  have hlength : (magic ++ salt).length = 3 + salt.length := by
    rw [List.length_append]
    rfl
  have hheader : (magic ++ salt ++ dollar :: 0 :: c.behind).take (3 + salt.length)
      = magic ++ salt := List.take_left' hlength
  have hkept : (magic ++ salt ++ dollar :: 0 :: c.behind).take (3 + salt.length + 1)
      = magic ++ salt ++ [dollar] := by
    have hsplit : magic ++ salt ++ dollar :: 0 :: c.behind
        = (magic ++ salt ++ [dollar]) ++ 0 :: c.behind := by simp
    rw [hsplit]
    apply List.take_left'
    rw [List.length_append, hlength]
    rfl
  rw [hsaltbytes, hheader, hkept, hdigest]
  have hstring : magic ++ salt ++ [dollar]
      ++ encode (cryptDigest c.checkStatics c.key salt (magic ++ salt)).2
      = magic ++ (salt ++ dollar :: c.digits salt) := by
    simp [PasswordCalls.digits]
  rw [hstring, cString, List.append_assoc, List.takeWhile_append_of_pos, List.singleton_append,
    List.takeWhile_cons_of_neg (by decide), List.append_nil]
  intro b hb
  rw [bne_iff_ne]
  rintro rfl
  exact hfront hb

theorem containedSalt_closed {salt : List UInt8} (h : dollar ∉ salt) (text : List UInt8) :
    containedSalt (salt ++ dollar :: text) = salt.take 8 := by
  rw [containedSalt, List.takeWhile_append_of_pos, List.takeWhile_cons_of_neg (by decide),
    List.append_nil]
  intro b hb
  rw [bne_iff_ne]
  rintro rfl
  exact h hb

/-- **One stored string** whose salt a `$` closes: it is checked rightly unless the salt is longer
than 8 characters and the text behind it is the digits for all of it. -/
theorem right_closed_iff (c : PasswordCalls) (salt : Salt) {text : List UInt8}
    (htext : 0 ∉ text) (hlen : salt.val.length < 2 ^ 31) (addr : Nat) :
    c.Right (salt.val ++ dollar :: text) addr ↔
      salt.val.length ≤ 8 ∨ text ≠ c.digits salt.val := by
  obtain ⟨r, hr, hiff⟩ := md5PasswordCheck_closed c salt htext hlen addr
  have hshort : dollar ∉ salt.val.take 8 ∧ 0 ∉ salt.val.take 8 :=
    ⟨fun h => salt.property.1 (List.mem_of_mem_take h),
      fun h => salt.property.2 (List.mem_of_mem_take h)⟩
  have hcrypt := cString_md5PasswordCrypt c ⟨salt.val.take 8, hshort⟩ (by
    rw [List.length_take]
    exact Nat.min_le_left _ _)
  have hright : c.Right (salt.val ++ dollar :: text) addr ↔
      (text = c.digits salt.val ↔ salt.val ++ dollar :: text
        = salt.val.take 8 ++ dollar :: c.digits (salt.val.take 8)) := by
    rw [PasswordCalls.Right, containedSalt_closed salt.property.1, hcrypt, hr,
      List.append_cancel_left_eq]
    constructor
    · rintro ⟨r', h, h'⟩
      cases h
      exact hiff.symm.trans h'
    · exact fun h => ⟨r, rfl, hiff.trans h⟩
  rw [hright]
  by_cases h8 : salt.val.length ≤ 8
  · rw [List.take_of_length_le h8]
    refine ⟨fun _ => Or.inl h8, fun _ => ?_⟩
    rw [List.append_cancel_left_eq, List.cons.injEq, and_iff_right rfl]
  · -- the ninth character of the salt is not the `$` that crypt mode puts there
    have hne : salt.val ++ dollar :: text
        ≠ salt.val.take 8 ++ dollar :: c.digits (salt.val.take 8) := by
      intro heq
      have hat : (salt.val ++ dollar :: text)[8]?
          = (salt.val.take 8 ++ dollar :: c.digits (salt.val.take 8))[8]? := by rw [heq]
      have h8len : (salt.val.take 8).length = 8 := by rw [List.length_take]; omega
      rw [List.getElem?_append_left (by omega), List.getElem?_append_right (by omega), h8len,
        Nat.sub_self, List.getElem?_cons_zero] at hat
      exact salt.property.1 (List.mem_of_getElem? hat)
    rw [or_iff_right h8]
    exact ⟨fun h htext' => hne (h.mp htext'), fun h => ⟨fun h' => absurd h' h, fun h' => absurd h' hne⟩⟩

/-- Without a `$` the length is minus an address, and more than the string is read. -/
theorem not_right_open (c : PasswordCalls) (salt : Salt) {addr : Nat}
    (haddr : addr + (3 + salt.val.length) + 1 < 2 ^ 32) : ¬ c.Right salt.val addr := by
  rintro ⟨r, hr, _⟩
  have hdrop : (magic ++ salt.val).drop 3 = salt.val := rfl
  have hlength : (magic ++ salt.val).length = 3 + salt.val.length := by
    rw [List.length_append]
    rfl
  have hsub : sub32 0 (addr + 3) = 2 ^ 32 - (addr + 3) := by
    rw [sub32, Nat.zero_add, u32_of_lt (by omega)]
  have hmod : (s32 (2 ^ 32 - (addr + 3)) % 2 ^ 32).toNat = 2 ^ 32 - (addr + 3) := by
    have hlt : (2 ^ 32 - (addr + 3)) % 2 ^ 32 = 2 ^ 32 - (addr + 3) := Nat.mod_eq_of_lt (by omega)
    rw [s32, hlt]
    split <;> omega
  have hnone : bytesAt (magic ++ salt.val) 3 (s32 (2 ^ 32 - (addr + 3))) = none := by
    rw [bytesAt]
    simp only [hmod]
    rw [if_neg (by omega)]
  rw [md5PasswordCheck, hdrop, dollarAt_open salt.property.1] at hr
  simp only [hsub, hnone] at hr
  cases hr

/-- **The check and crypt mode agree** on every text behind a salt exactly if it has at most 8
characters and a `$` closes it. -/
theorem md5Password_iff (c : PasswordCalls) (salt : Salt) (hlen : salt.val.length < 2 ^ 31) :
    ((∀ text addr, 0 ∉ text → c.Right (salt.val ++ dollar :: text) addr) ↔ salt.val.length ≤ 8)
      ∧ ∀ addr, addr + (3 + salt.val.length) + 1 < 2 ^ 32 → ¬ c.Right salt.val addr := by
  refine ⟨⟨fun h => ?_, fun h text addr htext => ?_⟩, fun addr haddr => not_right_open c salt haddr⟩
  · have hall := h (c.digits salt.val) 0 (encode_ne_zero _)
    have hor := (@right_closed_iff c salt (c.digits salt.val) (encode_ne_zero _) hlen 0).mp hall
    exact hor.resolve_right fun hne => hne rfl
  · exact (right_closed_iff c salt htext hlen addr).mpr (Or.inl h)

/-- The key `a`, before any other call. -/
def smallCalls : PasswordCalls where
  checkStatics := ⟨initstate, 0, List.replicate 64 0⟩
  cryptStatics := ⟨initstate, 0, List.replicate 64 0⟩
  key := [97]
  behind := List.replicate 128 0
  checkBuffer := rfl
  cryptBuffer := rfl

/-- The salt `123456789`. -/
def longSalt : Salt := ⟨[49, 50, 51, 52, 53, 54, 55, 56, 57], by decide⟩

/-- The salt `abc`. -/
def shortSalt : Salt := ⟨[97, 98, 99], by decide⟩

/-- `md5Password_iff` of a short salt and of a long one. -/
theorem md5Password_salts :
    (∀ text addr, 0 ∉ text → smallCalls.Right (shortSalt.val ++ dollar :: text) addr)
      ∧ ¬ ∀ text addr, 0 ∉ text → smallCalls.Right (longSalt.val ++ dollar :: text) addr :=
  ⟨(md5Password_iff smallCalls shortSalt (by decide)).1.mpr (by decide),
    fun h => absurd ((md5Password_iff smallCalls longSalt (by decide)).1.mp h) (by decide)⟩

/-- `$1$abc` is read past its NUL, and a hash with nine characters of salt is accepted though
crypt mode never makes it. -/
theorem openSalt_read : ¬ smallCalls.Right shortSalt.val 0x300000
    ∧ ¬ smallCalls.Right (longSalt.val ++ dollar :: smallCalls.digits longSalt.val) 0x300000 := by
  refine ⟨not_right_open smallCalls shortSalt (by decide), fun h => ?_⟩
  have hor := (@right_closed_iff smallCalls longSalt (smallCalls.digits longSalt.val)
    (encode_ne_zero _) (by decide) 0x300000).mp h
  rcases hor with h8 | hne
  · exact absurd h8 (by decide)
  · exact hne rfl

end LiloBoot.Md5
