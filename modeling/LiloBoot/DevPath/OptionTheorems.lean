/-
LiloBoot.DevPath.OptionTheorems — which options a scan goes over.

The tables are searched by the name of a token, the text before its equal
sign. A scan goes over the tokens that have an entry, and ends where one has
none. A token can also leave the match of an earlier entry standing: the name
fits, the equal sign is missing, and all the entries behind it have longer
names. The loop then goes round at the same place for ever. Of the tables this
happens with the last but two and the last of the TFTP options only.
-/
import LiloBoot.DevPath.NetTheorems

namespace LiloBoot.DevPath

/-! ## §1 The entry of a token -/

/-- The text of a token before its equal sign. -/
def optionName (b : CStr) : CStr := b.takeWhile (· ≠ '=')

/-- The token has the name of the entry, and an equal sign if it needs one. -/
def DevOption.Takes (opt : DevOption) (b : CStr) : Prop :=
  optionName b = opt.name ∧ ('=' ∈ b ∨ opt.flag &&& flagNeedsEqualsign = 0)

instance (opt : DevOption) (b : CStr) : Decidable (opt.Takes b) :=
  inferInstanceAs (Decidable (_ ∧ _))

theorem optionName_of_no_equal {b : CStr} (h : '=' ∉ b) : optionName b = b := by
  rw [optionName, List.takeWhile_eq_self_iff]
  intro c hc
  simpa using fun heq : c = '=' => h (heq ▸ hc)

/-- Where no two entries have one name, the entry that takes a token is found. -/
theorem matchOption_takes {b : CStr} {opt : DevOption} (htakes : opt.Takes b)
    (opts : List DevOption) (hmem : opt ∈ opts) (hnodup : (opts.map DevOption.name).Nodup) :
    ∀ found, matchOption b opts found = (true, some opt) := by
  induction opts with
  | nil => cases hmem
  | cons o opts ih =>
    intro found
    obtain ⟨hnew, hnodup⟩ := List.nodup_cons.mp hnodup
    rw [matchOption]
    rcases List.mem_cons.mp hmem with rfl | hmem
    · have hlen : opt.name.length ≤ b.length := by
        rw [← htakes.1]
        exact (List.takeWhile_prefix _).length_le
      have hyes : (b.takeWhile (· ≠ '=') == opt.name) = true := beq_iff_eq.mpr htakes.1
      rw [if_pos hlen]
      simp only [hyes, Bool.true_and]
      rw [if_pos]
      rcases htakes.2 with heq | hflag
      · simp [heq]
      · simp [hflag]
    · have hno : (b.takeWhile (· ≠ '=') == o.name) = false := by
        refine beq_eq_false_iff_ne.mpr fun heq => hnew ?_
        rw [← heq, show b.takeWhile (fun c => decide (c ≠ '=')) = opt.name from htakes.1]
        exact List.mem_map_of_mem hmem
      simp only [hno, Bool.false_and, Bool.false_eq_true, if_false, ih hmem hnodup, ite_self]

/-- A match that is left standing is of an entry with the very text of the token. -/
theorem matchOption_stale {b : CStr} (opts : List DevOption) : ∀ found,
    matchOption b opts found = (true, none) → found = true ∨ ∃ opt ∈ opts, b = opt.name := by
  induction opts with
  | nil =>
    intro found h
    cases h
    exact .inl rfl
  | cons o opts ih =>
    intro found h
    rw [matchOption] at h
    split at h
    · simp only at h
      split at h
      · cases h
      · rename_i hmatch
        rcases ih _ h with hfound | ⟨opt, hmem, hb⟩
        · refine .inr ⟨o, List.mem_cons_self, ?_⟩
          have hno : '=' ∉ b := by
            intro hin
            rw [hfound] at hmatch
            simp [hin] at hmatch
          rw [← beq_iff_eq.mp hfound]
          exact (optionName_of_no_equal hno).symm
        · exact .inr ⟨opt, List.mem_cons_of_mem _ hmem, hb⟩
    · rcases ih _ h with hfound | ⟨opt, hmem, hb⟩
      · exact .inl hfound
      · exact .inr ⟨opt, List.mem_cons_of_mem _ hmem, hb⟩

/-! ## §2 The tables -/

/-- The tables with the flags `parse_options` is called with. -/
def scanTables : List (List DevOption × Nat) :=
  [(interfaceOptions, 0), (commandKeywords, 0), (qualifierOptions, 0),
    (tftpIpv6BootstrapOptions, flagFilename)]

theorem scanTables_nodup : ∀ table ∈ scanTables, (table.1.map DevOption.name).Nodup := by
  decide

theorem scanTables_named : ∀ table ∈ scanTables, ∀ opt ∈ table.1, opt.name ≠ [] := by
  decide

/-- A token the scan goes over: it fits the buffer and has an entry, not one to stop at. -/
def Known (opts : List DevOption) (stopflag : Nat) (b : CStr) : Prop :=
  b.length ≤ 63 ∧ ∃ opt ∈ opts, opt.Takes b ∧ opt.flag &&& stopflag = 0

/-- `siaddr` and `blksize`. -/
def staleNames : List CStr := ["siaddr".toList, "blksize".toList]

section Table

variable {opts : List DevOption} {stopflag : Nat} (htable : (opts, stopflag) ∈ scanTables)

include htable

/-- The flag of a token the scan goes over is that of its entry. -/
theorem token_takes {b : CStr} {opt : DevOption} (hlen : b.length ≤ 63) (hmem : opt ∈ opts)
    (htakes : opt.Takes b) (comma : Bool) :
    token opts stopflag b comma =
      if opt.flag &&& stopflag ≠ 0 then .halt opt.flag (opt.name.length + 1)
      else if comma then .advance opt.flag
      else .halt opt.flag 0 := by
  have hpos : ¬ (b.length = 0 ∨ 63 < b.length) := by
    rintro (hzero | hlong)
    · have hname : opt.name = [] := by
        rw [← htakes.1, List.eq_nil_of_length_eq_zero hzero]
        rfl
      exact scanTables_named _ htable opt hmem hname
    · omega
  rw [token, if_neg hpos, matchOption_takes htakes opts hmem (scanTables_nodup _ htable)]

theorem token_advance_iff {b : CStr} {flag : Nat} :
    token opts stopflag b true = .advance flag ↔
      b.length ≤ 63 ∧ ∃ opt ∈ opts, opt.Takes b ∧ opt.flag &&& stopflag = 0 ∧ opt.flag = flag := by
  constructor
  · intro h
    rw [token] at h
    split at h
    · cases h
    · rename_i hlen
      split at h
      · rename_i opt hmatch
        obtain ⟨hmem, hname, hequal⟩ := matchOption_some _ _ _ hmatch
        split at h
        · cases h
        · rename_i hstop
          cases h
          exact ⟨by omega, opt, hmem, ⟨hname, hequal⟩, not_not.mp hstop, rfl⟩
      · split at h
        · cases h
        · cases h
  · rintro ⟨hlen, opt, hmem, htakes, hstop, rfl⟩
    rw [token_takes htable hlen hmem htakes, if_neg (not_not.mpr hstop), if_pos rfl]

theorem known_iff {b : CStr} :
    Known opts stopflag b ↔ ∃ flag, token opts stopflag b true = .advance flag := by
  constructor
  · rintro ⟨hlen, opt, hmem, htakes, hstop⟩
    exact ⟨opt.flag, (token_advance_iff htable).mpr ⟨hlen, opt, hmem, htakes, hstop, rfl⟩⟩
  · rintro ⟨flag, hflag⟩
    obtain ⟨hlen, opt, hmem, htakes, hstop, -⟩ := (token_advance_iff htable).mp hflag
    exact ⟨hlen, opt, hmem, htakes, hstop⟩

/-- The scan goes round at two names of one table. -/
theorem token_spin_iff {b : CStr} :
    token opts stopflag b true = .spin ↔ opts = tftpIpv6BootstrapOptions ∧ b ∈ staleNames := by
  constructor
  · intro h
    have hstale : ∃ opt ∈ opts, b = opt.name := by
      rw [token] at h
      split at h
      · cases h
      · split at h
        · split at h
          · cases h
          · cases h
        · rename_i found hmatch
          cases found with
          | false => cases h
          | true =>
            rcases matchOption_stale opts false hmatch with hfalse | hstale
            · cases hfalse
            · exact hstale
    obtain ⟨opt, hmem, rfl⟩ := hstale
    have hall : ∀ table ∈ scanTables, ∀ opt ∈ table.1,
        token table.1 table.2 opt.name true = .spin →
          table.1 = tftpIpv6BootstrapOptions ∧ opt.name ∈ staleNames := by
      decide +kernel
    exact hall _ htable opt hmem h
  · rintro ⟨rfl, hb⟩
    have hall : ∀ table ∈ scanTables, table.1 = tftpIpv6BootstrapOptions →
        ∀ b ∈ staleNames, token table.1 table.2 b true = .spin := by
      decide +kernel
    exact hall _ htable rfl b hb

end Table

/-! ## §3 A scan over known options -/

/-- Tokens, each with its comma. -/
def joinTokens (bs : List CStr) : CStr := bs.flatMap fun b => b ++ [',']

@[simp] theorem joinTokens_nil : joinTokens [] = [] := rfl

theorem joinTokens_cons (b : CStr) (bs : List CStr) :
    joinTokens (b :: bs) = b ++ ',' :: joinTokens bs := by
  rw [joinTokens, List.flatMap_cons, List.append_assoc]
  rfl

theorem joinTokens_append (bs bs' : List CStr) :
    joinTokens (bs ++ bs') = joinTokens bs ++ joinTokens bs' := List.flatMap_append

/-- A text without commas that the scan goes over. -/
def KnownToken (opts : List DevOption) (stopflag : Nat) (b : CStr) : Prop :=
  ',' ∉ b ∧ Known opts stopflag b

theorem passes_iff {opts : List DevOption} {stopflag : Nat}
    (htable : (opts, stopflag) ∈ scanTables) {c : CStr} {flags : Nat} :
    (∃ flags', Passes opts stopflag c flags flags') ↔
      ∃ bs, c = joinTokens bs ∧ ∀ b ∈ bs, KnownToken opts stopflag b := by
  constructor
  · rintro ⟨flags', hpass⟩
    induction hpass with
    | nil => exact ⟨[], rfl, fun b hb => absurd hb List.not_mem_nil⟩
    | @cons b c _ flag _ htext hfirst _ ih =>
      obtain ⟨bs, rfl, hknown⟩ := ih
      refine ⟨b :: bs, (joinTokens_cons b bs).symm, fun b' hb' => ?_⟩
      rcases List.mem_cons.mp hb' with rfl | hb'
      · exact ⟨htext, (known_iff htable).mpr ⟨flag, hfirst⟩⟩
      · exact hknown b' hb'
  · rintro ⟨bs, rfl, hknown⟩
    induction bs generalizing flags with
    | nil => exact ⟨flags, .nil flags⟩
    | cons b bs ih =>
      obtain ⟨htext, hb⟩ := hknown b List.mem_cons_self
      obtain ⟨flag, hfirst⟩ := (known_iff htable).mp hb
      obtain ⟨flags', hrest⟩ :=
        @ih (flags ||| flag) fun b' hb' => hknown b' (List.mem_cons_of_mem _ hb')
      exact ⟨flags', by rw [joinTokens_cons]; exact .cons htext hfirst hrest⟩

/-- A scan stops, or comes to a token where it goes round. -/
theorem scan_or_spin (opts : List DevOption) (stopflag : Nat) (s : CStr) : ∀ flags,
    (∃ c t flags' n, s = c ++ t ∧ Scan opts stopflag c t flags flags' n) ∨
      ∃ c b t mid, s = c ++ (b ++ ',' :: t) ∧ ',' ∉ b ∧ Passes opts stopflag c flags mid
        ∧ token opts stopflag b true = .spin := by
  induction hlen : s.length using Nat.strong_induction_on generalizing s with
  | _ len ih =>
    intro flags
    by_cases hcomma : ',' ∈ s
    · obtain ⟨b, t, rfl, hb⟩ := List.eq_append_cons_of_mem hcomma
      cases hfirst : token opts stopflag b true with
      | halt flag n =>
        refine .inl ⟨[], b ++ ',' :: t, _, n, rfl, flags, flag, .nil flags, ?_, rfl⟩
        rw [firstToken_comma opts stopflag hb, hfirst]
      | advance flag =>
        have hshort : t.length < len := by
          rw [← hlen, List.length_append, List.length_cons]
          omega
        rcases ih t.length hshort t rfl (flags ||| flag) with
          ⟨c, t, flags', n, rfl, mid, last, hpass, hhalt, hflags⟩ |
          ⟨c, b', t, mid, rfl, hb', hpass, hspin⟩
        · exact .inl ⟨b ++ ',' :: c, t, flags', n, by simp, mid, last, .cons hb hfirst hpass, hhalt,
            hflags⟩
        · exact .inr ⟨b ++ ',' :: c, b', t, mid, by simp, hb', .cons hb hfirst hpass, hspin⟩
      | spin => exact .inr ⟨[], b, t, flags, rfl, hb, .nil flags, hfirst⟩
    · cases hfirst : token opts stopflag s false with
      | halt flag n =>
        refine .inl ⟨[], s, _, n, rfl, flags, flag, .nil flags, ?_, rfl⟩
        rw [firstToken_none opts stopflag hcomma, hfirst]
      | advance flag => exact absurd (token_advance hfirst).2 (by decide)
      | spin =>
        rw [token] at hfirst
        split at hfirst
        · cases hfirst
        · split at hfirst
          · split at hfirst
            · cases hfirst
            · cases hfirst
          · rw [Bool.and_false] at hfirst
            cases hfirst

/-- The loop that goes round uses up any fuel. -/
theorem parseOptionsLoop_spin {opts : List DevOption} {stopflag : Nat} {b t : CStr}
    (hb : ',' ∉ b) (hspin : token opts stopflag b true = .spin) (fuel : Nat) :
    ∀ {c flags mid} len, Passes opts stopflag c flags mid →
      parseOptionsLoop opts stopflag fuel (c ++ (b ++ ',' :: t)) flags len = none := by
  induction fuel with
  | zero => exact fun _ _ => rfl
  | succ fuel ih =>
    intro c flags mid len hpass
    rw [parseOptionsLoop_succ]
    cases hpass with
    | nil =>
      rw [List.nil_append, firstToken_comma opts stopflag hb, hspin]
      exact ih len (.nil flags)
    | @cons b' c _ flag _ hb' hfirst hrest =>
      rw [List.append_assoc, List.cons_append, firstToken_comma opts stopflag hb', hfirst]
      simp only [splitComma_comma hb', drop_token]
      exact ih _ hrest

/-! ## §4 Where a scan ends -/

/-- A position just behind a comma. -/
def AfterComma (string : CStr) (pos : Nat) : Prop :=
  ∃ c t, string = c ++ ',' :: t ∧ pos = c.length + 1

/-- The start of an option. -/
def OptionStart (string : CStr) (pos : Nat) : Prop := pos = 0 ∨ AfterComma string pos

/-- Where a scan from `offset` may end. -/
def ScanEnd (opts : List DevOption) (stopflag : Nat) (string : CStr) (offset len : Nat) : Prop :=
  len = 0 ∨ AfterComma string (offset + len) ∨ offset + len = string.length ∨
    ∃ opt ∈ opts, opt.flag &&& stopflag ≠ 0 ∧ ∃ pos, OptionStart string pos
      ∧ opt.name ++ ['='] <+: string.drop pos ∧ offset + len = pos + (opt.name.length + 1)

/-- The offsets at which the first `fuel` rounds of `parse_options` read the string, each up to
the next comma or the NUL. -/
def scanOffsets (opts : List DevOption) (stopflag : Nat) (string : CStr) : Nat → Nat → List Nat
  | 0, _ => []
  | fuel + 1, offset =>
    offset :: match firstToken opts stopflag (string.drop offset) with
      | .halt _ _ => []
      | .advance _ =>
        scanOffsets opts stopflag string fuel
          (offset + (splitComma (string.drop offset)).1.length + 1)
      | .spin => scanOffsets opts stopflag string fuel offset

/-- The scan comes to an end, at the start of an option or behind the equal sign of the option
to stop at, and reads nothing behind the NUL. -/
structure ScanGood (opts : List DevOption) (stopflag : Nat) (string : CStr) (offset flags : Nat) :
    Prop where
  ends : ∃ flags' len, (∀ fuel, string.length < fuel →
      parseOptions fuel string offset flags opts stopflag = some (flags', len))
    ∧ ScanEnd opts stopflag string offset len
  reads : ∀ fuel, ∀ pos ∈ scanOffsets opts stopflag string fuel offset, pos ≤ string.length

/-- Known TFTP options up to a bare `siaddr` or `blksize` and a comma. -/
def Stuck (opts : List DevOption) (stopflag : Nat) (string : CStr) (offset : Nat) : Prop :=
  opts = tftpIpv6BootstrapOptions ∧ ∃ bs b t, string.drop offset = joinTokens bs ++ (b ++ ',' :: t)
    ∧ (∀ b' ∈ bs, KnownToken opts stopflag b') ∧ b ∈ staleNames

theorem AfterComma.le {string : CStr} {pos : Nat} (h : AfterComma string pos) :
    pos ≤ string.length := by
  obtain ⟨c, t, rfl, rfl⟩ := h
  rw [List.length_append, List.length_cons]
  omega

theorem OptionStart.le {string : CStr} {pos : Nat} (h : OptionStart string pos) :
    pos ≤ string.length := by
  rcases h with rfl | h
  · exact Nat.zero_le _
  · exact h.le

/-- No round reads behind the NUL, whether the loop ends or not. -/
theorem scanOffsets_le (opts : List DevOption) (stopflag : Nat) (string : CStr) (fuel : Nat) :
    ∀ offset, offset ≤ string.length →
      ∀ pos ∈ scanOffsets opts stopflag string fuel offset, pos ≤ string.length := by
  induction fuel with
  | zero => exact fun _ _ pos hpos => absurd hpos List.not_mem_nil
  | succ fuel ih =>
    intro offset hoffset pos hpos
    rw [scanOffsets] at hpos
    rcases List.mem_cons.mp hpos with rfl | hpos
    · exact hoffset
    · cases hfirst : firstToken opts stopflag (string.drop offset) with
      | halt flag n =>
        rw [hfirst] at hpos
        exact absurd hpos List.not_mem_nil
      | advance flag =>
        rw [hfirst] at hpos
        -- there is a comma, so the offset behind it is in the string
        have hcomma := (token_advance hfirst).2
        have htext := (splitComma_eq (string.drop offset)).2
        obtain ⟨q, hq⟩ := Option.isSome_iff_exists.mp hcomma
        have hlen := congrArg List.length htext
        rw [show (splitComma (string.drop offset)).2 = some q.tail by rw [splitComma, hq]; rfl,
          Option.map_some, Option.getD_some, List.length_append, List.length_cons,
          List.length_drop] at hlen
        exact ih _ (by omega) pos hpos
      | spin =>
        rw [hfirst] at hpos
        exact ih offset hoffset pos hpos

/-- A stop inside a token is behind the name of an entry to stop at, and its equal sign. -/
theorem token_stop_entry {opts : List DevOption} {stopflag : Nat}
    (htable : (opts, stopflag) ∈ scanTables) {b : CStr} {comma : Bool} {flag n : Nat}
    (h : token opts stopflag b comma = .halt flag n) :
    n = 0 ∨ ∃ opt ∈ opts, opt.flag &&& stopflag ≠ 0 ∧ opt.name ++ ['='] <+: b
      ∧ n = opt.name.length + 1 := by
  simp only [scanTables, List.mem_cons, Prod.mk.injEq, List.not_mem_nil, or_false] at htable
  rcases htable with ⟨rfl, rfl⟩ | ⟨rfl, rfl⟩ | ⟨rfl, rfl⟩ | ⟨rfl, rfl⟩
  · exact .inl (token_zero h)
  · exact .inl (token_zero h)
  · exact .inl (token_zero h)
  · rcases token_stop h with hzero | ⟨hnine, -, -, s, rfl⟩
    · exact .inl hzero
    · refine .inr ⟨⟨"filename".toList, flagNeedsEqualsign ||| flagFilename⟩, by decide, by decide,
        ?_, hnine⟩
      exact List.prefix_append filenameMark s

/-- A run over tokens ends where it began or behind a comma. -/
theorem afterComma_of_closed {string c t : CStr} {offset : Nat} (hle : offset ≤ string.length)
    (hsplit : string.drop offset = c ++ t) (hclosed : Closed c) :
    c = [] ∨ AfterComma string (offset + c.length) := by
  rcases hclosed with rfl | ⟨c₀, rfl⟩
  · exact .inl rfl
  · refine .inr ⟨string.take offset ++ c₀, t, ?_, ?_⟩
    · have hall := (List.take_append_drop offset string).symm
      rw [hsplit] at hall
      simpa using hall
    · rw [List.length_append, List.length_append, List.length_take_of_le hle]
      simp only [List.length_singleton]
      omega

theorem scanEnd_of_scan {opts : List DevOption} {stopflag : Nat}
    (htable : (opts, stopflag) ∈ scanTables) {string c t : CStr} {offset flags flags' n : Nat}
    (hstart : OptionStart string offset) (hsplit : string.drop offset = c ++ t)
    (hscan : Scan opts stopflag c t flags flags' n) :
    ScanEnd opts stopflag string offset (c.length + n) := by
  obtain ⟨mid, flag, hpass, hhalt, -⟩ := hscan
  have hbehind := afterComma_of_closed hstart.le hsplit hpass.closed
  rcases token_stop_entry htable hhalt with rfl | ⟨opt, hmem, hflag, hpre, rfl⟩
  · rcases hbehind with rfl | hcomma
    · exact .inl rfl
    · exact .inr (.inl hcomma)
  · refine .inr (.inr (.inr ⟨opt, hmem, hflag, offset + c.length, ?_, ?_, ?_⟩))
    · rcases hbehind with rfl | hcomma
      · exact hstart
      · exact .inr hcomma
    · rw [← List.drop_drop, hsplit, List.drop_left]
      exact hpre.trans (List.takeWhile_prefix _)
    · omega

/-- **`parse_options` ends on an option's boundary, unless it scans the TFTP options and comes to
a bare `siaddr` or `blksize` that a comma follows.** -/
theorem parseOptions_good_iff {opts : List DevOption} {stopflag : Nat}
    (htable : (opts, stopflag) ∈ scanTables) (string : CStr) (offset flags : Nat)
    (hstart : OptionStart string offset) :
    ScanGood opts stopflag string offset flags ↔ ¬ Stuck opts stopflag string offset := by
  constructor
  · rintro ⟨⟨flags', len, hends, -⟩, -⟩ ⟨rfl, bs, b, t, hsplit, hknown, hb⟩
    obtain ⟨mid, hpass⟩ := (@passes_iff _ _ htable _ flags).mpr ⟨bs, rfl, hknown⟩
    have hcomma : ',' ∉ b := by
      have hall : ∀ b ∈ staleNames, ',' ∉ b := by decide
      exact hall b hb
    have hnone := @parseOptionsLoop_spin _ _ b t hcomma
      ((token_spin_iff htable).mpr ⟨rfl, hb⟩) (string.length + 1) _ _ _ 0 hpass
    have hrun := hends (string.length + 1) (Nat.lt_succ_self _)
    rw [parseOptions, if_neg (fun hempty => by simp [hempty] at hsplit), hsplit, hnone] at hrun
    cases hrun
  · intro hnot
    refine ⟨?_, fun fuel => scanOffsets_le opts stopflag string fuel offset hstart.le⟩
    rcases scan_or_spin opts stopflag (string.drop offset) flags with
      ⟨c, t, flags', n, hsplit, hscan⟩ | ⟨c, b, t, mid, hsplit, -, hpass, hspin⟩
    · exact ⟨flags', c.length + n, fun fuel hfuel => parseOptions_of_scan hsplit hscan hfuel,
        scanEnd_of_scan htable hstart hsplit hscan⟩
    · obtain ⟨htftp, hb⟩ := (token_spin_iff htable).mp hspin
      obtain ⟨bs, rfl, hknown⟩ := (passes_iff htable).mp ⟨mid, hpass⟩
      exact absurd ⟨htftp, bs, b, t, hsplit, hknown, hb⟩ hnot

/-- `ciaddr=1.2.3.4,filename=yaboot` -/
def addressOptions : CStr := "ciaddr=1.2.3.4,filename=yaboot".toList

theorem addressOptions_good :
    ScanGood tftpIpv6BootstrapOptions flagFilename addressOptions 0 0 ↔
      ¬ Stuck tftpIpv6BootstrapOptions flagFilename addressOptions 0 :=
  parseOptions_good_iff (by decide) addressOptions 0 0 (.inl rfl)

/-- `siaddr,filename=yaboot` -/
def bareSiaddr : CStr := "siaddr,filename=yaboot".toList

/-- Nothing resets the match of `siaddr`, as `filename` and all that follow are longer. -/
theorem bareSiaddr_spins :
    (∀ fuel, parseOptions fuel bareSiaddr 0 0 tftpIpv6BootstrapOptions flagFilename = none)
      ∧ ¬ ScanGood tftpIpv6BootstrapOptions flagFilename bareSiaddr 0 0 := by
  have hnone : ∀ fuel,
      parseOptions fuel bareSiaddr 0 0 tftpIpv6BootstrapOptions flagFilename = none :=
    fun fuel => @parseOptionsLoop_spin _ _ "siaddr".toList "filename=yaboot".toList (by decide)
      (by decide +kernel) fuel [] 0 0 0 (.nil 0)
  refine ⟨hnone, fun h => ?_⟩
  obtain ⟨flags', len, hends, -⟩ := h.ends
  exact absurd ((hnone 100).symm.trans (hends 100 (by decide))) (by simp)

end LiloBoot.DevPath
