/-
LiloBoot.DevPath.AddressTheorems — addresses as text.

`ipv4_to_ascii` prints four decimal octets, and `ascii_to_ipv4` reads them back.
What it reads besides is more than an address: `strtol` takes a minus sign, no
digits at all and a number that has wrapped, and behind the fourth octet a dot
is as good as the end of the string. These are the only texts that slip
through, and none of them makes it look behind the NUL.
-/
import LiloBoot.DevPath.BlockTheorems

namespace LiloBoot.DevPath

/-! ## §1 The texts between the dots -/

/-- The number that digits stand for. -/
def numeral (t : CStr) : Nat := Nat.ofDigitChars 10 t 0

/-- A decimal number from 0 to 255. -/
def Octet (t : CStr) : Prop := t ≠ [] ∧ (∀ c ∈ t, c.isDigit = true) ∧ numeral t ≤ 255

/-- Four octets, separated by single dots. -/
def DottedQuad (s : CStr) : Prop :=
  (s.splitOn '.').length = 4 ∧ ∀ t ∈ s.splitOn '.', Octet t

/-- A text without its minus sign. -/
def unsigned : CStr → CStr
  | '-' :: ds => ds
  | ds => ds

/-- The number `strtol` takes a text for, as an `unsigned long`. -/
def looseNumber : CStr → Nat
  | '-' :: ds => sub32 0 (u32 (numeral ds))
  | ds => u32 (numeral ds)

/-- Digits, or none, with or without a minus sign, that stand for a number from 0 to 255. -/
def LooseOctet (t : CStr) : Prop :=
  (∀ c ∈ unsigned t, c.isDigit = true) ∧ looseNumber t ≤ 255

/-- Four such texts in front, not all of them 0. -/
def GetsThrough (s : CStr) : Prop :=
  4 ≤ (s.splitOn '.').length ∧ (∀ t ∈ (s.splitOn '.').take 4, LooseOctet t)
    ∧ ∃ t ∈ (s.splitOn '.').take 4, looseNumber t ≠ 0

/-- There is a text too many, or one that is empty, has a minus sign or does not fit into an
`unsigned long`. -/
def Malformed (s : CStr) : Prop :=
  (s.splitOn '.').length ≠ 4
    ∨ ∃ t ∈ (s.splitOn '.').take 4, t = [] ∨ t.head? = some '-' ∨ 2 ^ 32 ≤ numeral t

instance (t : CStr) : Decidable (Octet t) := inferInstanceAs (Decidable (_ ∧ _))

instance (s : CStr) : Decidable (DottedQuad s) := inferInstanceAs (Decidable (_ ∧ _))

instance (t : CStr) : Decidable (LooseOctet t) := inferInstanceAs (Decidable (_ ∧ _))

instance (s : CStr) : Decidable (GetsThrough s) := inferInstanceAs (Decidable (_ ∧ _))

instance (s : CStr) : Decidable (Malformed s) := inferInstanceAs (Decidable (_ ∨ _))

theorem unsigned_plain {t : CStr} (h : t.head? ≠ some '-') : unsigned t = t := by
  unfold unsigned
  split
  · exact absurd rfl h
  · rfl

theorem looseNumber_plain {t : CStr} (h : t.head? ≠ some '-') :
    looseNumber t = u32 (numeral t) := by
  unfold looseNumber
  split
  · exact absurd rfl h
  · rfl

theorem looseNumber_lt (t : CStr) : looseNumber t < 2 ^ 32 := by
  unfold looseNumber
  split
  · exact sub32_lt _ _
  · exact u32_lt _

/-- A string has one text, or a first text and the texts behind the dot. -/
theorem splitOn_cases (s : CStr) (c : Char) :
    (c ∉ s ∧ s.splitOn c = [s])
      ∨ ∃ t s', c ∉ t ∧ s = t ++ c :: s' ∧ s.splitOn c = t :: s'.splitOn c := by
  by_cases h : c ∈ s
  · obtain ⟨t, s', hs, ht⟩ := List.eq_append_cons_of_mem h
    exact .inr ⟨t, s', ht, hs, by rw [hs, List.splitOn_append_cons_self_of_not_mem ht]⟩
  · exact .inl ⟨h, List.splitOn_eq_singleton h⟩

/-! ## §2 The loop over the octets -/

/-- Every text is taken up to its first character that is no digit. -/
theorem exists_unsigned (t : CStr) : ∃ pre post, t = pre ++ post
    ∧ (∀ c ∈ unsigned pre, c.isDigit = true) ∧ (∀ c ∈ post.head?, ¬ c.isDigit = true)
    ∧ unsigned t = unsigned pre ++ post
    ∧ ∀ rest, (∀ c ∈ rest.head?, ¬ c.isDigit = true) → rest.head? ≠ some '-' →
      simpleStrtol (t ++ rest) 10 = (s32 (looseNumber pre), post ++ rest) := by
  have hsplit : ∀ ds : CStr, ∃ pre post, ds = pre ++ post ∧ (∀ c ∈ pre, c.isDigit = true)
      ∧ ∀ c ∈ post.head?, ¬ c.isDigit = true := by
    intro ds
    refine ⟨ds.takeWhile (·.isDigit), ds.dropWhile (·.isDigit), ?_, ?_, ?_⟩
    · exact (List.takeWhile_append_dropWhile).symm
    · exact fun c hc => List.mem_takeWhile_imp hc
    · intro c hc
      have hhead := List.head?_dropWhile_not (·.isDigit) ds
      rw [Option.mem_def.mp hc] at hhead
      simpa using hhead
  by_cases hminus : t.head? = some '-'
  · obtain ⟨ds, rfl⟩ : ∃ ds, t = '-' :: ds := List.head?_eq_some_iff.mp hminus
    obtain ⟨pre, post, rfl, hpre, hpost⟩ := hsplit ds
    refine ⟨'-' :: pre, post, rfl, hpre, hpost, rfl, fun rest hrest _ => ?_⟩
    have hstop : ∀ c ∈ (post ++ rest).head?, ¬ c.isDigit = true := by
      cases post with
      | nil => exact hrest
      | cons c post => exact hpost
    obtain ⟨hvalue, hdrop⟩ := leadingNumber_digits hpre hstop
    rw [List.cons_append, List.append_assoc, simpleStrtol_minus, hvalue, hdrop]
    rfl
  · obtain ⟨pre, post, rfl, hpre, hpost⟩ := hsplit t
    have hplain : pre.head? ≠ some '-' := by
      cases pre with
      | nil => simp
      | cons c pre => exact hminus
    refine ⟨pre, post, rfl, by rwa [unsigned_plain hplain], hpost,
      by rw [unsigned_plain hminus, unsigned_plain hplain], fun rest hrest hsign => ?_⟩
    have hstop : ∀ c ∈ (post ++ rest).head?, ¬ c.isDigit = true := by
      cases post with
      | nil => exact hrest
      | cons c post => exact hpost
    have hhead : (pre ++ post ++ rest).head? ≠ some '-' := by
      cases hp : pre ++ post with
      | nil => exact hsign
      | cons c p =>
        rw [hp] at hminus
        exact hminus
    obtain ⟨hvalue, hdrop⟩ := leadingNumber_digits hpre hstop
    rw [simpleStrtol_plain hhead, List.append_assoc, hvalue, hdrop, looseNumber_plain hplain]
    simp only [s32, u32, Nat.mod_mod, numeral]

/-- An octet ends at a dot or with the string. -/
def AtEnd (rest : CStr) : Prop := rest = [] ∨ rest.head? = some '.'

theorem AtEnd.head {rest : CStr} (h : AtEnd rest) :
    (∀ c ∈ rest.head?, ¬ c.isDigit = true) ∧ rest.head? ≠ some '-' := by
  rcases h with rfl | h
  · simp
  · simp only [h, Option.mem_def, Option.some.injEq, forall_eq']
    decide

theorem s32_octet {n : Nat} (h : n < 2 ^ 32) :
    (s32 n < 0 ∨ 255 < s32 n ↔ 255 < n) ∧ (n ≤ 255 → (s32 n).toNat = n) := by
  simp only [s32]
  omega

/-- A text that is taken for an octet is added to the address. -/
theorem asciiToIpv4Loop_loose {t rest : CStr} (ht : LooseOctet t) (hrest : AtEnd rest)
    (left ip : Nat) : asciiToIpv4Loop (left + 1) (t ++ rest) ip =
      if rest = [] ∧ left ≠ 0 then 0
      else asciiToIpv4Loop left rest.tail (u32 (ip + looseNumber t * 2 ^ (8 * left))) := by
  obtain ⟨pre, post, rfl, -, hpost, hunsigned, hread⟩ := exists_unsigned t
  obtain rfl : post = [] := by
    cases post with
    | nil => rfl
    | cons c post => exact absurd (ht.1 c (by simp [hunsigned])) (hpost c rfl)
  rw [List.append_nil] at ht ⊢
  obtain ⟨hrange, hvalue⟩ := s32_octet (looseNumber_lt pre)
  have hsmall : ¬ (s32 (looseNumber pre) < 0 ∨ 255 < s32 (looseNumber pre)) := by
    rw [hrange]
    exact Nat.not_lt.mpr ht.2
  have hdot : ¬ (rest ≠ [] ∧ rest.head? ≠ some '.') := by
    rintro ⟨hne, hhead⟩
    exact hrest.elim hne hhead
  have hstrtol := hread rest hrest.head.1 hrest.head.2
  rw [List.append_nil, List.nil_append] at hstrtol
  rw [asciiToIpv4Loop, hstrtol]
  simp only [if_neg hsmall, if_neg hdot, hvalue ht.2]

/-- Any other text makes the address 0. -/
theorem asciiToIpv4Loop_bad {t rest : CStr} (ht : ¬ LooseOctet t) (hdot : '.' ∉ t)
    (hrest : AtEnd rest) (left ip : Nat) : asciiToIpv4Loop (left + 1) (t ++ rest) ip = 0 := by
  obtain ⟨pre, post, rfl, hpre, hpost, hunsigned, hread⟩ := exists_unsigned t
  rw [asciiToIpv4Loop, hread rest hrest.head.1 hrest.head.2]
  simp only
  cases post with
  | nil =>
    have hlarge : 255 < looseNumber pre := by
      by_contra hle
      rw [List.append_nil] at ht
      exact ht ⟨hpre, by omega⟩
    rw [if_pos ((s32_octet (looseNumber_lt pre)).1.mpr hlarge)]
  | cons c post =>
    have hstop : ¬ (c :: post ++ rest = [] ∧ left ≠ 0) := by simp
    have hother : c :: post ++ rest ≠ [] ∧ (c :: post ++ rest).head? ≠ some '.' := by
      refine ⟨by simp, fun heq => hdot ?_⟩
      cases heq
      simp
    rw [if_neg hstop, if_pos hother]
    exact ite_self 0

/-- The address that texts make. -/
def looseAddress : List CStr → Nat
  | [] => 0
  | t :: ts => looseNumber t * 2 ^ (8 * ts.length) + looseAddress ts

/-- The first `n` texts are taken for octets. -/
def Octets (n : Nat) (s : CStr) : Prop :=
  n ≤ (s.splitOn '.').length ∧ ∀ t ∈ (s.splitOn '.').take n, LooseOctet t

theorem asciiToIpv4Loop_octets (n : Nat) : ∀ s ip, Octets n s → ip < 2 ^ 32 →
    asciiToIpv4Loop n s ip = u32 (ip + looseAddress ((s.splitOn '.').take n)) := by
  induction n with
  | zero =>
    intro s ip _ hip
    simp [asciiToIpv4Loop, looseAddress, u32_of_lt hip]
  | succ n ih =>
    rintro s ip ⟨hlen, hall⟩ -
    rcases splitOn_cases s '.' with ⟨-, hone⟩ | ⟨t, s', -, rfl, hmore⟩
    · rw [hone] at hlen hall ⊢
      obtain rfl : n = 0 := by simpa using hlen
      have hs := hall s (by simp)
      have hstep := asciiToIpv4Loop_loose hs (.inl rfl) 0 ip
      rw [List.append_nil] at hstep
      rw [hstep, if_neg (by simp)]
      simp [asciiToIpv4Loop, looseAddress]
    · rw [hmore] at hlen hall ⊢
      rw [List.take_succ_cons] at hall ⊢
      have hn : n ≤ (s'.splitOn '.').length := by simpa using hlen
      have hrest : Octets n s' := ⟨hn, fun t' ht' => hall t' (List.mem_cons_of_mem _ ht')⟩
      rw [asciiToIpv4Loop_loose (hall t List.mem_cons_self) (.inr rfl), if_neg (by simp),
        List.tail_cons, ih s' _ hrest (u32_lt _), looseAddress, List.length_take_of_le hn]
      simp only [u32]
      omega

theorem asciiToIpv4Loop_not_octets (n : Nat) : ∀ s ip, ¬ Octets n s →
    asciiToIpv4Loop n s ip = 0 := by
  induction n with
  | zero =>
    intro s ip h
    exact absurd ⟨Nat.zero_le _, by simp⟩ h
  | succ n ih =>
    intro s ip h
    rcases splitOn_cases s '.' with ⟨hdot, hone⟩ | ⟨t, s', hdot, rfl, hmore⟩
    · by_cases hs : LooseOctet s
      · have hn : n ≠ 0 := by
          rintro rfl
          exact h ⟨by simp [hone], by simpa [hone] using hs⟩
        have hstep := asciiToIpv4Loop_loose hs (.inl rfl) n ip
        rwa [List.append_nil, if_pos ⟨rfl, hn⟩] at hstep
      · have hstep := asciiToIpv4Loop_bad hs hdot (.inl rfl) n ip
        rwa [List.append_nil] at hstep
    · by_cases ht : LooseOctet t
      · rw [asciiToIpv4Loop_loose ht (.inr rfl), if_neg (by simp), List.tail_cons]
        refine ih s' _ fun hrest => h ⟨?_, ?_⟩
        · simpa [hmore] using hrest.1
        · rw [hmore, List.take_succ_cons]
          exact List.forall_mem_cons.mpr ⟨ht, hrest.2⟩
      · exact asciiToIpv4Loop_bad ht hdot (.inr rfl) n ip

theorem looseAddress_lt (ts : List CStr) : (∀ t ∈ ts, LooseOctet t) →
    looseAddress ts < 2 ^ (8 * ts.length) := by
  induction ts with
  | nil => simp [looseAddress]
  | cons t ts ih =>
    intro h
    obtain ⟨ht, hts⟩ := List.forall_mem_cons.mp h
    have hlow := ih hts
    have hhigh : looseNumber t * 2 ^ (8 * ts.length) ≤ 255 * 2 ^ (8 * ts.length) :=
      Nat.mul_le_mul_right _ ht.2
    have hpow : 2 ^ (8 * (t :: ts).length) = 256 * 2 ^ (8 * ts.length) := by
      rw [List.length_cons, Nat.mul_succ, Nat.pow_add, Nat.mul_comm]
    rw [looseAddress, hpow]
    omega

theorem looseAddress_ne_zero (ts : List CStr) :
    looseAddress ts ≠ 0 ↔ ∃ t ∈ ts, looseNumber t ≠ 0 := by
  induction ts with
  | nil => simp [looseAddress]
  | cons t ts ih =>
    have hpow : 2 ^ (8 * ts.length) ≠ 0 := by positivity
    rw [looseAddress, List.exists_mem_cons_iff, ← ih, ne_eq, Nat.add_eq_zero_iff, not_and_or,
      Nat.mul_eq_zero, or_iff_left hpow]

/-- The texts that make an address which is not 0. -/
theorem asciiToIpv4_ne_zero (s : CStr) : asciiToIpv4 s ≠ 0 ↔ GetsThrough s := by
  by_cases h : Octets 4 s
  · have hlen : ((s.splitOn '.').take 4).length = 4 := List.length_take_of_le h.1
    have hlt := looseAddress_lt _ h.2
    rw [hlen] at hlt
    rw [asciiToIpv4, asciiToIpv4Loop_octets 4 s 0 h (by decide), Nat.zero_add, u32_of_lt hlt,
      looseAddress_ne_zero]
    exact ⟨fun hne => ⟨h.1, h.2, hne⟩, fun hthrough => hthrough.2.2⟩
  · rw [asciiToIpv4, asciiToIpv4Loop_not_octets 4 s 0 h]
    exact ⟨fun hne => absurd rfl hne, fun hthrough => absurd ⟨hthrough.1, hthrough.2.1⟩ h⟩

/-! ## §3 An address printed -/

theorem looseOctet_decimal {n : Nat} (h : n ≤ 255) :
    LooseOctet (decimal n) ∧ looseNumber (decimal n) = n := by
  have hdigit : ∀ c ∈ decimal n, c.isDigit = true := fun c hc => decimal_isDigit hc
  have hplain : (decimal n).head? ≠ some '-' := by
    intro heq
    exact absurd (hdigit '-' (List.mem_of_head? heq)) (by decide)
  have hvalue : numeral (decimal n) = n := Nat.ofDigitChars_ten_toDigits
  have hnumber : looseNumber (decimal n) = n := by
    rw [looseNumber_plain hplain, hvalue, u32_of_lt (by omega)]
  exact ⟨⟨by rwa [unsigned_plain hplain], by rwa [hnumber]⟩, hnumber⟩

theorem decimal_no_dot (n : Nat) : '.' ∉ decimal n := fun h =>
  absurd (decimal_isDigit h) (by decide)

/-- **An address printed is read back.** -/
theorem asciiToIpv4_ipv4ToAscii {ip : Nat} (h : ip < 2 ^ 32) : asciiToIpv4 (ipv4ToAscii ip) = ip := by
  have htexts : (ipv4ToAscii ip).splitOn '.' = [decimal (ip / 2 ^ 24 % 256),
      decimal (ip / 2 ^ 16 % 256), decimal (ip / 2 ^ 8 % 256), decimal (ip % 256)] := by
    simp only [ipv4ToAscii, List.append_assoc, List.cons_append]
    iterate 3 rw [List.splitOn_append_cons_self_of_not_mem (decimal_no_dot _)]
    rw [List.splitOn_eq_singleton (decimal_no_dot _)]
  have hoctet : ∀ n, LooseOctet (decimal (n % 256)) ∧ looseNumber (decimal (n % 256)) = n % 256 :=
    fun n => looseOctet_decimal (Nat.le_of_lt_succ (Nat.mod_lt n (by decide)))
  have hall : Octets 4 (ipv4ToAscii ip) := by
    rw [Octets, htexts]
    simp [(hoctet _).1]
  rw [asciiToIpv4, asciiToIpv4Loop_octets 4 _ 0 hall (by decide), htexts]
  simp only [List.take, looseAddress, (hoctet _).2, List.length_cons, List.length_nil, u32]
  omega

/-! ## §4 Memory -/

/-- `simple_strtoul(cp, &end, base)` in a memory that ends somewhere, for a base that is not 0;
`none` where it reads behind the end. -/
def simpleStrtoulMem (base : Nat) : List Char → Nat → Option (Nat × List Char)
  | [], _ => none
  | c :: cp, result =>
    match xdigitOf c with
    | none => some (result, c :: cp)
    | some value =>
      if value < base then simpleStrtoulMem base cp (u32 (result * base + value))
      else some (result, c :: cp)

/-- `simple_strtol(cp, &end, base)` there. -/
def simpleStrtolMem (base : Nat) : List Char → Option (Int × List Char)
  | [] => none
  | '-' :: cp => (simpleStrtoulMem base cp 0).map fun r => (s32 (sub32 0 r.1), r.2)
  | cp => (simpleStrtoulMem base cp 0).map fun r => (s32 r.1, r.2)

/-- The loop of `ascii_to_ipv4` there. The NUL is a character like any other. -/
def asciiToIpv4LoopMem : Nat → List Char → Nat → Option Nat
  | 0, _, ip => some ip
  | left + 1, ptr, ip =>
    match simpleStrtolMem 10 ptr with
    | none => none
    | some (tmp, endptr) =>
      if tmp < 0 ∨ 255 < tmp then some 0
      else
        match endptr with
        | [] => none
        | c :: rest =>
          if c = '\x00' ∧ left ≠ 0 then some 0
          else if c ≠ '\x00' ∧ c ≠ '.' then some 0
          else asciiToIpv4LoopMem left rest (u32 (ip + tmp.toNat * 2 ^ (8 * left)))

def asciiToIpv4Mem (str : List Char) : Option Nat := asciiToIpv4LoopMem 4 str 0

/-- A string as it stands in memory, up to its NUL. -/
def terminated (s : CStr) : List Char := s ++ ['\x00']

theorem simpleStrtoulMem_terminated {base : Nat} (s : CStr) : ∀ n,
    simpleStrtoulMem base (terminated s) n
      = some ((simpleStrtoulLoop base s n).1, terminated (simpleStrtoulLoop base s n).2) := by
  induction s with
  | nil =>
    intro n
    rfl
  | cons c s ih =>
    intro n
    have hcons : terminated (c :: s) = c :: terminated s := rfl
    rw [hcons, simpleStrtoulMem, simpleStrtoulLoop]
    cases hd : xdigitOf c with
    | none => rfl
    | some value =>
      simp only
      split
      · exact ih _
      · rfl

theorem simpleStrtolMem_terminated (s : CStr) : simpleStrtolMem 10 (terminated s)
    = some ((simpleStrtol s 10).1, terminated (simpleStrtol s 10).2) := by
  have hbase : ∀ t, simpleStrtoul t 10 = simpleStrtoulLoop 10 t 0 := fun t => rfl
  by_cases hminus : s.head? = some '-'
  · obtain ⟨t, rfl⟩ : ∃ t, s = '-' :: t := List.head?_eq_some_iff.mp hminus
    have hcons : terminated ('-' :: t) = '-' :: terminated t := rfl
    rw [hcons, simpleStrtolMem, simpleStrtoulMem_terminated, simpleStrtol, hbase]
    rfl
  · have hne : ∀ cp, terminated s = '-' :: cp → False := by
      intro cp heq
      cases s with
      | nil => cases heq
      | cons c t =>
        cases heq
        exact hminus rfl
    rw [simpleStrtolMem, simpleStrtoulMem_terminated, simpleStrtol, hbase]
    · rfl
    · rintro cp rfl
      exact hminus rfl
    · simp [terminated]
    · exact hne

theorem simpleStrtol_rest {s : CStr} {c : Char} (h : c ∈ (simpleStrtol s 10).2) : c ∈ s := by
  by_cases hminus : s.head? = some '-'
  · obtain ⟨t, rfl⟩ : ∃ t, s = '-' :: t := List.head?_eq_some_iff.mp hminus
    rw [simpleStrtol_minus] at h
    exact List.mem_cons_of_mem _ ((List.dropWhile_sublist _).subset h)
  · rw [simpleStrtol_plain hminus] at h
    exact (List.dropWhile_sublist _).subset h

/-- No step needs more of the memory than the string and its NUL. -/
theorem asciiToIpv4LoopMem_terminated (left : Nat) : ∀ s ip, '\x00' ∉ s →
    asciiToIpv4LoopMem left (terminated s) ip = some (asciiToIpv4Loop left s ip) := by
  induction left with
  | zero =>
    intro s ip _
    rfl
  | succ left ih =>
    intro s ip hnul
    rw [asciiToIpv4LoopMem, simpleStrtolMem_terminated, asciiToIpv4Loop]
    have hrest : '\x00' ∉ (simpleStrtol s 10).2 := fun h => hnul (simpleStrtol_rest h)
    generalize simpleStrtol s 10 = r at hrest
    obtain ⟨tmp, endptr⟩ := r
    simp only
    by_cases hrange : tmp < 0 ∨ 255 < tmp
    · rw [if_pos hrange, if_pos hrange]
    · rw [if_neg hrange, if_neg hrange]
      cases endptr with
      | nil =>
        cases left with
        | zero => simp [terminated, asciiToIpv4LoopMem, asciiToIpv4Loop]
        | succ left => simp [terminated]
      | cons c rest =>
        rw [List.mem_cons, not_or] at hrest
        have hc : c ≠ '\x00' := Ne.symm hrest.1
        have hcons : terminated (c :: rest) = c :: terminated rest := rfl
        by_cases hdot : c = '.'
        · subst hdot
          rw [hcons]
          simp [ih rest _ hrest.2]
        · rw [hcons]
          simp [hdot, hc]

/-- An address that is not 0 is one, and no character behind the NUL is read. -/
structure AddressGood (s : CStr) : Prop where
  quad : asciiToIpv4 s ≠ 0 → DottedQuad s
  inside : asciiToIpv4Mem (terminated s) = some (asciiToIpv4 s)

/-! ## §5 What is taken for an address -/

/-- Without a defect, what gets through is an address. -/
theorem dottedQuad_iff {s : CStr} (h : GetsThrough s) : DottedQuad s ↔ ¬ Malformed s := by
  obtain ⟨-, hall, -⟩ := h
  constructor
  · rintro ⟨hlen, hoctets⟩ (hmany | ⟨t, ht, hbad⟩)
    · exact hmany hlen
    · obtain ⟨hne, hdigit, hsmall⟩ := hoctets t (List.mem_of_mem_take ht)
      rcases hbad with hempty | hminus | hwrapped
      · exact hne hempty
      · exact absurd (hdigit '-' (List.mem_of_head? hminus)) (by decide)
      · omega
  · intro hgood
    obtain ⟨hlen, htexts⟩ := not_or.mp hgood
    rw [not_not] at hlen
    rw [List.take_of_length_le (by omega)] at hall htexts
    refine ⟨hlen, fun t ht => ?_⟩
    obtain ⟨hne, hplain, hfits⟩ : t ≠ [] ∧ t.head? ≠ some '-' ∧ numeral t < 2 ^ 32 := by
      by_contra hbad
      refine htexts ⟨t, ht, ?_⟩
      rw [not_and_or, not_and_or, not_not, not_not, Nat.not_lt] at hbad
      exact hbad
    obtain ⟨hdigit, hsmall⟩ := hall t ht
    rw [unsigned_plain hplain] at hdigit
    rw [looseNumber_plain hplain, u32_of_lt hfits] at hsmall
    exact ⟨hne, hdigit, hsmall⟩

/-- **Addresses as text**: every address is read back as it was printed; what is read from a
string is an address or 0 exactly if the string does not get through with a defect. -/
theorem ascii_to_ipv4_good_iff {ip : Nat} {s : CStr} (hip : ip < 2 ^ 32) (hs : '\x00' ∉ s) :
    (asciiToIpv4 (ipv4ToAscii ip) = ip ∧ AddressGood s) ↔ ¬ (GetsThrough s ∧ Malformed s) := by
  have hinside := asciiToIpv4LoopMem_terminated 4 s 0 hs
  constructor
  · rintro ⟨-, hquad, -⟩ ⟨hthrough, hbad⟩
    exact (dottedQuad_iff hthrough).mp (hquad ((asciiToIpv4_ne_zero s).mpr hthrough)) hbad
  · intro hgood
    refine ⟨asciiToIpv4_ipv4ToAscii hip, fun hne => ?_, hinside⟩
    have hthrough := (asciiToIpv4_ne_zero s).mp hne
    exact (dottedQuad_iff hthrough).mpr fun hbad => hgood ⟨hthrough, hbad⟩

/-- `10.1.0.254` -/
def hostAddress : CStr := ['1', '0', '.', '1', '.', '0', '.', '2', '5', '4']

theorem hostAddress_good :
    (asciiToIpv4 (ipv4ToAscii 0xa0100fe) = 0xa0100fe ∧ AddressGood hostAddress)
      ↔ ¬ (GetsThrough hostAddress ∧ Malformed hostAddress) :=
  ascii_to_ipv4_good_iff (by decide) (by decide)

/-- `1..-0.4.5`: an empty octet, a minus sign and a fifth number. -/
def oddAddress : CStr := ['1', '.', '.', '-', '0', '.', '4', '.', '5']

/-- It is read as 1.0.0.4. -/
theorem oddAddress_read : asciiToIpv4 oddAddress = 0x1000004 ∧ ¬ DottedQuad oddAddress
    ∧ ¬ AddressGood oddAddress := by
  have hread : asciiToIpv4 oddAddress = 0x1000004 := by decide +kernel
  have hodd : ¬ DottedQuad oddAddress := by decide +kernel
  refine ⟨hread, hodd, fun h => hodd (h.quad ?_)⟩
  rw [hread]
  decide

end LiloBoot.DevPath
