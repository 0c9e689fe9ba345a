/-
LiloBoot.DevPath.NetTheorems — a relative image on the boot server.

The boot path of a network device is taken apart, put together again with the
name of the image in the place of the file name, and parsed a second time.
`NetParse` says what the parser makes of an option string, without fuel. The
second parse finds the image if the scans stop where they stopped before.
They do not where the boot path is one option and nothing else, and for IPv6
where the image itself is taken for an option or the token is too long.
-/
import LiloBoot.DevPath.ScanTheorems

namespace LiloBoot.DevPath

/-! ## §1 Matching names -/

theorem matchOption_some {b : CStr} {opt : DevOption} (opts : List DevOption) : ∀ found m,
    matchOption b opts found = (m, some opt) →
    opt ∈ opts ∧ b.takeWhile (· ≠ '=') = opt.name
      ∧ ('=' ∈ b ∨ opt.flag &&& flagNeedsEqualsign = 0) := by
  induction opts with
  | nil =>
    intro found m h
    cases h
  | cons o opts ih =>
    intro found m h
    rw [matchOption] at h
    split at h
    · simp only at h
      split at h
      · rename_i hmatch
        cases h
        simp only [Bool.and_eq_true, beq_iff_eq, Bool.not_eq_true'] at hmatch
        refine ⟨List.mem_cons_self, hmatch.1, ?_⟩
        by_cases heq : '=' ∈ b
        · exact .inl heq
        · right
          simpa [heq] using hmatch.2
      · obtain ⟨hmem, hrest⟩ := ih _ _ h
        exact ⟨List.mem_cons_of_mem _ hmem, hrest⟩
    · obtain ⟨hmem, hrest⟩ := ih _ _ h
      exact ⟨List.mem_cons_of_mem _ hmem, hrest⟩

/-- A token whose name is in no entry is passed over. -/
theorem matchOption_none {b : CStr} (opts : List DevOption)
    (h : ∀ opt ∈ opts, b.takeWhile (· ≠ '=') ≠ opt.name) :
    matchOption b opts false = (false, none) := by
  induction opts with
  | nil => rfl
  | cons o opts ih =>
    have hrest := ih fun opt hopt => h opt (List.mem_cons_of_mem _ hopt)
    have hname : (b.takeWhile (· ≠ '=') == o.name) = false :=
      beq_eq_false_iff_ne.mpr (h o List.mem_cons_self)
    rw [matchOption]
    simp only [hname, Bool.false_and, Bool.false_eq_true, if_false, hrest, ite_self]

/-- The first entry with the name of a token that has its equal sign is found. -/
theorem matchOption_found {b : CStr} {o : DevOption} {post : List DevOption}
    (pre : List DevOption) (hpre : ∀ opt ∈ pre, b.takeWhile (· ≠ '=') ≠ opt.name)
    (hname : b.takeWhile (· ≠ '=') = o.name) (heq : '=' ∈ b) : ∀ found,
    matchOption b (pre ++ o :: post) found = (true, some o) := by
  induction pre with
  | nil =>
    intro found
    have hlen : o.name.length ≤ b.length := by
      rw [← hname]
      exact (List.takeWhile_prefix _).length_le
    have hyes : (b.takeWhile (· ≠ '=') == o.name) = true := beq_iff_eq.mpr hname
    rw [List.nil_append, matchOption, if_pos hlen]
    simp only [hyes]
    simp [heq]
  | cons p pre ih =>
    intro found
    have hno : (b.takeWhile (· ≠ '=') == p.name) = false :=
      beq_eq_false_iff_ne.mpr (hpre p List.mem_cons_self)
    have hrest := ih fun opt hopt => hpre opt (List.mem_cons_of_mem _ hopt)
    rw [List.cons_append, matchOption]
    simp only [hno, Bool.false_and, Bool.false_eq_true, if_false, hrest, ite_self]

/-- `filename=`. -/
def filenameMark : CStr := "filename=".toList

theorem filenameMark_eq : filenameMark = ['f', 'i', 'l', 'e', 'n', 'a', 'm', 'e', '='] := rfl

theorem filename_name (s : CStr) :
    (filenameMark ++ s).takeWhile (· ≠ '=') = ['f', 'i', 'l', 'e', 'n', 'a', 'm', 'e'] := rfl

/-- No other table has the entry. -/
theorem token_filename_zero {opts : List DevOption}
    (h : opts ∈ [interfaceOptions, commandKeywords, qualifierOptions]) (s : CStr) (comma : Bool) :
    token opts 0 (filenameMark ++ s) comma = .halt 0 0 := by
  have hnone : matchOption (filenameMark ++ s) opts false = (false, none) := by
    refine matchOption_none opts fun opt hopt => ?_
    rw [filename_name]
    simp only [List.mem_cons, List.not_mem_nil, or_false] at h
    rcases h with rfl | rfl | rfl
    · revert opt
      decide
    · revert opt
      decide
    · revert opt
      decide
  rw [token]
  split
  · rfl
  · simp only [hnone]
    rfl

/-- `filename=` with its value is a token of at most 63 characters, and the scan stops behind
the equal sign. -/
theorem token_filename {s : CStr} (h : s.length ≤ 54) (comma : Bool) :
    token tftpIpv6BootstrapOptions flagFilename (filenameMark ++ s) comma
      = .halt (flagNeedsEqualsign ||| flagFilename) 9 := by
  have hlen : ¬ ((filenameMark ++ s).length = 0 ∨ 63 < (filenameMark ++ s).length) := by
    have hmark : filenameMark.length = 9 := rfl
    rw [List.length_append, hmark]
    omega
  have hmatch : matchOption (filenameMark ++ s) tftpIpv6BootstrapOptions false
      = (true, some ⟨"filename".toList, flagNeedsEqualsign ||| flagFilename⟩) := by
    refine matchOption_found (tftpIpv6BootstrapOptions.take 4) (fun opt hopt => ?_) rfl
      (List.mem_append_left _ (by decide)) false
    rw [filename_name]
    revert opt
    decide
  rw [token, if_neg hlen, hmatch]
  rfl

theorem only_filename_stops : ∀ opt ∈ tftpIpv6BootstrapOptions, opt.flag &&& flagFilename ≠ 0 →
    opt = ⟨"filename".toList, flagNeedsEqualsign ||| flagFilename⟩ := by
  decide

/-- Only `filename=` stops the scan of the TFTP options inside a token. -/
theorem token_stop {b : CStr} {comma : Bool} {flag n : Nat}
    (h : token tftpIpv6BootstrapOptions flagFilename b comma = .halt flag n) :
    n = 0 ∨ (n = 9 ∧ flag = flagNeedsEqualsign ||| flagFilename ∧ b.length ≤ 63
      ∧ ∃ s, b = filenameMark ++ s) := by
  rw [token] at h
  split at h
  · cases h
    exact .inl rfl
  · rename_i hlen
    split at h
    · rename_i m opt hmatch
      obtain ⟨hmem, hname, heq⟩ := matchOption_some _ _ _ hmatch
      split at h
      · rename_i hstop
        have hopt : opt = ⟨"filename".toList, flagNeedsEqualsign ||| flagFilename⟩ :=
          only_filename_stops opt hmem hstop
        subst hopt
        cases h
        refine .inr ⟨rfl, rfl, by omega, ?_⟩
        have hin : '=' ∈ b := by
          rcases heq with heq | heq
          · exact heq
          · exact absurd heq (by decide)
        obtain ⟨pre, post, rfl, hpre⟩ := List.eq_append_cons_of_mem hin
        refine ⟨post, ?_⟩
        rw [List.takeWhile_append_of_pos (by
            intro c hc
            simpa using fun hceq : c = '=' => hpre (hceq ▸ hc)),
          List.takeWhile_cons_of_neg (by simp), List.append_nil] at hname
        rw [hname]
        rfl
      · split at h
        · cases h
        · cases h
          exact .inl rfl
    · split at h
      · cases h
      · cases h
        exact .inl rfl

/-- At a comma a scan that stops leaves the flags alone. -/
theorem token_comma {opts : List DevOption} {b : CStr} {flag n : Nat}
    (h : token opts 0 b true = .halt flag n) : token opts 0 b true = .halt 0 0 := by
  rw [token] at h ⊢
  split at h
  · rename_i hlen
    rw [if_pos hlen]
  · rename_i hlen
    rw [if_neg hlen]
    split at h
    · simp only [Nat.and_zero, ne_eq, not_true_eq_false, if_false, if_true] at h
      cases h
    · rename_i found _
      cases found with
      | true => cases h
      | false => rfl

/-! ## §2 What the parser makes of network options -/

/-- The scan of the TFTP options for IPv6. -/
def ScanTftp (c t : CStr) (flags flags' n : Nat) : Prop :=
  Scan tftpIpv6BootstrapOptions flagFilename c t flags flags' n

/-- From an option string: the flags, what stands before and behind the file name, and the file
name. There is no `bootp-response`, and no iSCSI. -/
inductive NetParse : CStr → Nat → Option CStr → Option CStr → Option CStr → Prop where
  | bare {c : CStr} {f : Nat} (scan : ScanAll c [] 0 f) (iscsi : f &&& flagIscsi = 0)
      (ipv4 : f &&& flagIpv6 = 0) : NetParse c f (some c) none none
  | server {c t : CStr} {f : Nat} (scan : ScanAll c t 0 f) (iscsi : f &&& flagIscsi = 0)
      (ipv4 : f &&& flagIpv6 = 0) (some_text : t ≠ []) (text : ',' ∉ t) :
      NetParse (c ++ t) f (some t) none none
  | file {c t p : CStr} {f : Nat} (scan : ScanAll c (t ++ ',' :: p) 0 f)
      (iscsi : f &&& flagIscsi = 0) (ipv4 : f &&& flagIpv6 = 0) (text : ',' ∉ t) :
      NetParse (c ++ (t ++ ',' :: p)) f (some (c ++ t)) (splitComma p).2 (some (splitComma p).1)
  | nothing {c t : CStr} {f f' : Nat} (scan : ScanAll c t 0 f) (iscsi : f &&& flagIscsi = 0)
      (ipv6 : f &&& flagIpv6 ≠ 0) (options : ScanTftp [] t f f' 0) :
      NetParse (c ++ t) f' none none none
  | file6 {c c' t : CStr} {f f' n : Nat} (scan : ScanAll c (c' ++ t) 0 f)
      (iscsi : f &&& flagIscsi = 0) (ipv6 : f &&& flagIpv6 ≠ 0) (options : ScanTftp c' t f f' n)
      (found : 0 < c'.length + n) :
      NetParse (c ++ (c' ++ t)) f' (some (c ++ (c' ++ t.take n))) (splitComma (t.drop n)).2
        (some (splitComma (t.drop n)).1)

/-- A network device before its options are read. -/
def netStart (device : CStr) (mac : List UInt8) : PathDescription :=
  { PathDescription.zero with type := .net, device := some device, mac := mac }

section Parse

variable {fw : Firmware} {fuel : Nat} {device options : CStr} {mac : List UInt8}

theorem take_append_take (c t : CStr) (n : Nat) : (c ++ t).take (c.length + n) = c ++ t.take n := by
  rw [List.take_append, List.take_of_length_le (by omega), Nat.add_sub_cancel_left]

theorem drop_append_drop (c t : CStr) (n : Nat) : (c ++ t).drop (c.length + n) = t.drop n := by
  rw [← List.drop_drop, List.drop_left]

/-- The IPv6 options, by what the scan found. -/
theorem getTftpIpv6Options_eq {path : PathDescription} {c c' t : CStr} {f' n : Nat}
    (hparse : parseOptions fuel (c ++ (c' ++ t)) c.length path.flags tftpIpv6BootstrapOptions
      flagFilename = some (f', c'.length + n)) :
    getTftpIpv6Options fuel path (c ++ (c' ++ t)) c.length =
      if c'.length + n = 0 then some { path with flags := f' }
      else some { path with
        flags := f', s1 := some (c ++ (c' ++ t.take n))
        filename := some (splitComma (t.drop n)).1
        s2 := match (splitComma (t.drop n)).2 with
          | none => path.s2
          | some after => some after } := by
  simp only [getTftpIpv6Options, Option.bind_eq_bind, hparse, Option.bind_some]
  split
  · rfl
  · rw [take_append_take, take_append_take, drop_append_drop, drop_append_drop]
    cases (splitComma (t.drop n)).2 with
    | none => rfl
    | some after => rfl

theorem parseOptions_tftp {c c' t : CStr} {f f' n : Nat} (hscan : ScanTftp c' t f f' n)
    (hfuel : (c ++ (c' ++ t)).length < fuel) :
    parseOptions fuel (c ++ (c' ++ t)) c.length f tftpIpv6BootstrapOptions flagFilename
      = some (f', c'.length + n) :=
  parseOptions_of_scan (by rw [List.drop_left]) hscan hfuel

/-- What the parser makes of IPv4 options without a `bootp-response`. -/
theorem getTftpIpv4Options_file (hboot : fw.bootpResponse = none) (path : PathDescription)
    {c t p : CStr} (htext : ',' ∉ t) :
    getTftpIpv4Options fw path (c ++ (t ++ ',' :: p)) c.length =
      { path with
        s1 := some (c ++ t), filename := some (splitComma p).1
        s2 := match (splitComma p).2 with
          | none => path.s2
          | some after => some after } := by
  simp only [getTftpIpv4Options, List.drop_left, getTftpIpv4IbmCAS, hboot, splitComma_comma htext]
  rw [if_neg (by simp), take_append_take, List.take_left]
  cases (splitComma p).2 with
  | none => rfl
  | some after => rfl

theorem getTftpIpv4Options_server (hboot : fw.bootpResponse = none) (path : PathDescription)
    {c t : CStr} (hne : t ≠ []) (htext : ',' ∉ t) :
    getTftpIpv4Options fw path (c ++ t) c.length = { path with s1 := some t } := by
  simp only [getTftpIpv4Options, List.drop_left, getTftpIpv4IbmCAS, hboot, splitComma_none htext,
    hne, if_false]

theorem getTftpIpv4Options_bare (path : PathDescription) (c : CStr) :
    getTftpIpv4Options fw path c c.length = { path with s1 := some c } := by
  simp only [getTftpIpv4Options, List.drop_length, if_true]

/-- The parser computes `NetParse`. -/
theorem parseNetDevice_of_netParse (hboot : fw.bootpResponse = none) {f : Nat}
    {before after name : Option CStr} (h : NetParse options f before after name)
    (hfuel : options.length < fuel) :
    parseNetDevice fw fuel (netStart device mac) options
      = some { netStart device mac with
          flags := f, s1 := before, s2 := after, filename := name } := by
  have hstart : ∀ {c t : CStr} {g : Nat}, ScanAll c t 0 g → g &&& flagIscsi = 0 →
      (c ++ t).length < fuel →
      parseNetDevice fw fuel (netStart device mac) (c ++ t)
        = getTftpOptions fw fuel { netStart device mac with flags := g } (c ++ t) c.length := by
    intro c t g hscan hiscsi hlen
    have hflags : (netStart device mac).flags = 0 := rfl
    simp only [parseNetDevice, hflags, Option.bind_eq_bind, scanOptions_of_scan hscan hlen,
      Option.bind_some, hiscsi]
    rfl
  cases h with
  | bare scan iscsi ipv4 =>
    have hrun := hstart scan iscsi (by rwa [List.append_nil])
    rw [List.append_nil] at hrun
    rw [hrun]
    simp only [getTftpOptions, ipv4, ne_eq, not_true_eq_false, if_false]
    rw [getTftpIpv4Options_bare]
    rfl
  | server scan iscsi ipv4 hne htext =>
    rw [hstart scan iscsi hfuel]
    simp only [getTftpOptions, ipv4, ne_eq, not_true_eq_false, if_false]
    rw [getTftpIpv4Options_server hboot _ hne htext]
    rfl
  | @file c t p f scan iscsi ipv4 htext =>
    rw [hstart scan iscsi hfuel]
    simp only [getTftpOptions, ipv4, ne_eq, not_true_eq_false, if_false]
    rw [getTftpIpv4Options_file hboot _ htext]
    cases (splitComma p).2 with
    | none => rfl
    | some after => rfl
  | @nothing c t g _ scan iscsi ipv6 hopts =>
    have hlen : (c ++ ([] ++ t)).length < fuel := hfuel
    have hnone : getTftpIpv6Options fuel { netStart device mac with flags := g } (c ++ ([] ++ t))
        c.length = some { netStart device mac with flags := f } :=
      (getTftpIpv6Options_eq (parseOptions_tftp hopts hlen)).trans (if_pos rfl)
    rw [hstart scan iscsi hfuel]
    simp only [getTftpOptions, ipv6, ne_eq, not_false_eq_true, if_true]
    exact hnone
  | @file6 c c' t g _ n scan iscsi ipv6 hopts hfound =>
    rw [hstart scan iscsi hfuel]
    simp only [getTftpOptions, ipv6, ne_eq, not_false_eq_true, if_true]
    rw [getTftpIpv6Options_eq (parseOptions_tftp hopts hfuel), if_neg (by omega)]
    cases (splitComma (t.drop n)).2 with
    | none => rfl
    | some after => rfl

/-- Whatever the parser returns for a network device is a `NetParse`. -/
theorem parseNetDevice_netParse (hboot : fw.bootpResponse = none) {d : PathDescription}
    (h : parseNetDevice fw fuel (netStart device mac) options = some d) (hnet : d.type = .net) :
    NetParse options d.flags d.s1 d.s2 d.filename ∧ d.device = some device := by
  simp only [parseNetDevice, Option.bind_eq_bind] at h
  obtain ⟨⟨f, offset⟩, hscan, h⟩ := Option.bind_eq_some_iff.mp h
  obtain ⟨c, t, rfl, hall, rfl⟩ := scanOptions_scan hscan
  have hzero : ScanAll c t 0 f := hall
  simp only at h
  split at h
  · -- an iSCSI path is none of a network device
    cases h
    simp only [getIscsiOptions] at hnet
    split at hnet
    · cases hnet
    · cases hnet
  rename_i hiscsi
  rw [not_not] at hiscsi
  rw [getTftpOptions] at h
  split at h
  · rename_i hipv6
    have hparse := h
    simp only [getTftpIpv6Options, Option.bind_eq_bind] at hparse
    obtain ⟨⟨f', len⟩, hopts, -⟩ := Option.bind_eq_some_iff.mp hparse
    obtain ⟨c', t', n, hsplit, htftp, rfl⟩ := parseOptions_scan hopts
    rw [List.drop_left] at hsplit
    subst hsplit
    rw [getTftpIpv6Options_eq hopts] at h
    split at h
    · rename_i hlen
      cases h
      obtain rfl : c' = [] := List.eq_nil_of_length_eq_zero (by omega)
      obtain rfl : n = 0 := by omega
      exact ⟨.nothing hzero hiscsi hipv6 htftp, rfl⟩
    · rename_i hlen
      cases h
      have hfile := NetParse.file6 hzero hiscsi hipv6 htftp (Nat.pos_of_ne_zero hlen)
      refine ⟨?_, rfl⟩
      cases hafter : (splitComma (t'.drop n)).2 with
      | none => rw [hafter] at hfile; exact hfile
      | some after => rw [hafter] at hfile; exact hfile
  · rename_i hipv4
    rw [not_not] at hipv4
    cases h
    by_cases hempty : t = []
    · subst hempty
      rw [List.append_nil, getTftpIpv4Options_bare]
      exact ⟨.bare hzero hiscsi hipv4, rfl⟩
    · by_cases hcomma : ',' ∈ t
      · obtain ⟨b, p, rfl, hb⟩ := List.eq_append_cons_of_mem hcomma
        rw [getTftpIpv4Options_file hboot _ hb]
        have hfile := NetParse.file hzero hiscsi hipv4 hb
        refine ⟨?_, rfl⟩
        cases hafter : (splitComma p).2 with
        | none => rw [hafter] at hfile; exact hfile
        | some after => rw [hafter] at hfile; exact hfile
      · rw [getTftpIpv4Options_server hboot _ hempty hcomma]
        exact ⟨.server hzero hiscsi hipv4 hempty hcomma, rfl⟩

end Parse

/-! ## §3 The second parse -/

/-- A name and what follows it. -/
def withAfter (name : CStr) (after : Option CStr) : CStr :=
  name ++ (after.map (',' :: ·)).getD []

theorem splitComma_withAfter {name : CStr} (h : ',' ∉ name) (after : Option CStr) :
    splitComma (withAfter name after) = (name, after) := by
  cases after with
  | none =>
    rw [withAfter, Option.map_none, Option.getD_none, List.append_nil]
    exact splitComma_none h
  | some after => exact splitComma_comma h after

theorem withAfter_of_split {s name : CStr} {after : Option CStr}
    (h : splitComma s = (name, after)) : s = withAfter name after := by
  have heq := (splitComma_eq s).2
  rw [h] at heq
  exact heq

/-- The option string put together for an image. -/
def relativeOptions (flags : Nat) (before after : Option CStr) (img : CStr) : CStr :=
  before.getD [] ++ ((if flags &&& flagIpv6 ≠ 0 then [] else [',']) ++ withAfter img after)

/-- A text the first scans go over. -/
def IsOption (b : CStr) : Prop :=
  ∃ opts ∈ [interfaceOptions, commandKeywords, qualifierOptions], token opts 0 b true ≠ .halt 0 0

/-- An image the scan of the TFTP options stops before. -/
def Unscanned (img : CStr) (comma : Bool) : Prop :=
  ∃ flag, token tftpIpv6BootstrapOptions flagFilename img comma = .halt flag 0

/-- The condition on the boot path and the image. -/
def RelativeOk (flags : Nat) (before after name : Option CStr) (img : CStr) : Prop :=
  if flags &&& flagIpv6 ≠ 0 then
    match before with
    | none => False
    | some b => if filenameMark <:+ b then img.length ≤ 54 else Unscanned img after.isSome
  else name = none → ∀ b, before = some b → ',' ∉ b → ¬ IsOption b

/-- Nothing, or a text that ends in a comma. -/
def Closed (c : CStr) : Prop := c = [] ∨ ∃ c₀, c = c₀ ++ [',']

theorem Closed.append {c c' : CStr} (h : Closed c) (h' : Closed c') : Closed (c ++ c') := by
  rcases h' with rfl | ⟨c₀, rfl⟩
  · rwa [List.append_nil]
  · exact .inr ⟨c ++ c₀, (List.append_assoc _ _ _).symm⟩

theorem Passes.closed {opts : List DevOption} {stopflag flags flags' : Nat} {c : CStr}
    (h : Passes opts stopflag c flags flags') : Closed c := by
  induction h with
  | nil => exact .inl rfl
  | @cons b c _ _ _ _ _ _ ih =>
    rcases ih with rfl | ⟨c₀, rfl⟩
    · exact .inr ⟨b, rfl⟩
    · exact .inr ⟨b ++ ',' :: c₀, by simp⟩

theorem ScanAll.closed {c t : CStr} {flags flags' : Nat} (h : ScanAll c t flags flags') :
    Closed c := by
  obtain ⟨c₁, c₂, c₃, f₁, f₂, rfl, ⟨_, _, h₁, -⟩, ⟨_, _, h₂, -⟩, ⟨_, _, h₃, -⟩⟩ := h
  exact h₁.closed.append (h₂.closed.append h₃.closed)

theorem Closed.nil_of_no_comma {c : CStr} (h : Closed c) (hno : ',' ∉ c) : c = [] := by
  rcases h with rfl | ⟨c₀, rfl⟩
  · rfl
  · exact absurd (by simp) hno

/-- `filename=` does not end in a comma. -/
theorem Closed.not_mark {c : CStr} (h : Closed c) : ¬ filenameMark <:+ c := by
  rintro ⟨p, hp⟩
  rcases h with rfl | ⟨c₀, rfl⟩
  · have hlen := congrArg List.length hp
    rw [List.length_append] at hlen
    exact absurd hlen (by simp [filenameMark_eq])
  · have hmark : filenameMark = ['f', 'i', 'l', 'e', 'n', 'a', 'm', 'e'] ++ ['='] := rfl
    rw [hmark, ← List.append_assoc] at hp
    exact absurd (List.append_inj' hp rfl).2 (by decide)

theorem or_and_ne_zero {x m : Nat} (y : Nat) (h : x &&& m ≠ 0) : (x ||| y) &&& m ≠ 0 := by
  rw [Nat.and_or_distrib_right]
  intro hzero
  exact h (Nat.or_eq_zero_iff.mp hzero).1

theorem Passes.flags_kept {opts : List DevOption} {stopflag flags flags' m : Nat} {c : CStr}
    (h : Passes opts stopflag c flags flags') (hm : flags &&& m ≠ 0) : flags' &&& m ≠ 0 := by
  induction h with
  | nil => exact hm
  | cons _ _ _ ih => exact ih (or_and_ne_zero _ hm)

theorem Scan.flags_kept {opts : List DevOption} {stopflag flags flags' n m : Nat} {c t : CStr}
    (h : Scan opts stopflag c t flags flags' n) (hm : flags &&& m ≠ 0) : flags' &&& m ≠ 0 := by
  obtain ⟨mid, flag, hpass, -, rfl⟩ := h
  exact or_and_ne_zero _ (hpass.flags_kept hm)

/-- Where a file name is found, it is what stands between the other two parts. -/
theorem netParse_some {s : CStr} {f : Nat} {before after : Option CStr} {name : CStr}
    (h : NetParse s f before after (some name)) :
    (∃ c t, before = some (c ++ t) ∧ s = (c ++ t) ++ ',' :: withAfter name after
        ∧ ScanAll c (t ++ ',' :: withAfter name after) 0 f)
      ∨ ∃ c c' t n g, before = some (c ++ (c' ++ t.take n))
        ∧ s = (c ++ (c' ++ t.take n)) ++ withAfter name after
        ∧ t.drop n = withAfter name after ∧ ScanAll c (c' ++ t) 0 g ∧ ScanTftp c' t g f n := by
  cases h with
  | @file c t p _ scan =>
    have hp : p = withAfter (splitComma p).1 (splitComma p).2 := withAfter_of_split rfl
    refine .inl ⟨c, t, rfl, ?_, ?_⟩
    · rw [← hp, List.append_assoc]
    · rw [← hp]
      exact scan
  | @file6 c c' t g _ n scan _ _ options =>
    have hp : t.drop n = withAfter (splitComma (t.drop n)).1 (splitComma (t.drop n)).2 :=
      withAfter_of_split rfl
    refine .inr ⟨c, c', t, n, g, rfl, ?_, hp, scan, options⟩
    rw [← hp, List.append_assoc, List.append_assoc, List.take_append_drop]

/-! ## §4 Found again -/

theorem firstToken_withAfter (opts : List DevOption) (stopflag : Nat) {img : CStr}
    (h : ',' ∉ img) (after : Option CStr) :
    firstToken opts stopflag (withAfter img after) = token opts stopflag img after.isSome := by
  cases after with
  | none =>
    rw [withAfter, Option.map_none, Option.getD_none, List.append_nil]
    exact firstToken_none opts stopflag h
  | some after => exact firstToken_comma opts stopflag h after

/-- The image is found again. -/
def FoundAgain (flags : Nat) (before after : Option CStr) (img : CStr) : Prop :=
  ∃ f, NetParse (relativeOptions flags before after img) f before after (some img)

section Again

variable {flags f n : Nat} {c c' t img : CStr} {before after : Option CStr}

theorem not_isOption_nil : ¬ IsOption [] := by
  rintro ⟨opts, -, h⟩
  exact h rfl

/-- What stops the first scans at once is no option. -/
theorem not_isOption_of_scanAll (htext : ',' ∉ t)
    (h : ScanAll [] (t ++ ',' :: img) 0 f) : ¬ IsOption t := by
  obtain ⟨c₁, c₂, c₃, f₁, f₂, hc, h₁, h₂, h₃⟩ := h
  obtain ⟨rfl, hrest⟩ := List.append_eq_nil_iff.mp hc.symm
  obtain ⟨rfl, rfl⟩ := List.append_eq_nil_iff.mp hrest
  have hhalts : ∀ opts g g', Scan opts 0 [] (t ++ ',' :: img) g g' 0 →
      token opts 0 t true = .halt 0 0 := by
    rintro opts g g' ⟨mid, flag, -, hhalt, -⟩
    rw [firstToken_comma opts 0 htext] at hhalt
    exact token_comma hhalt
  rintro ⟨opts, hopts, hoption⟩
  simp only [List.mem_cons, List.not_mem_nil, or_false] at hopts
  rcases hopts with rfl | rfl | rfl
  · exact hoption (hhalts _ _ _ h₁)
  · exact hoption (hhalts _ _ _ h₂)
  · exact hoption (hhalts _ _ _ h₃)

theorem scanAll_of_not_isOption (htext : ',' ∉ t) (h : ¬ IsOption t) :
    ScanAll [] (t ++ ',' :: img) 0 0 := by
  have hscan : ∀ opts ∈ [interfaceOptions, commandKeywords, qualifierOptions],
      Scan opts 0 [] (t ++ ',' :: img) 0 0 0 := by
    intro opts hopts
    refine ⟨0, 0, .nil 0, ?_, rfl⟩
    rw [firstToken_comma opts 0 htext]
    by_contra hne
    exact h ⟨opts, hopts, hne⟩
  exact ⟨[], [], [], 0, 0, rfl, hscan _ (by simp), hscan _ (by simp), hscan _ (by simp)⟩

/-- A boot path with nothing behind its options takes the image behind a comma. -/
theorem again_bare (hcomma : ',' ∉ img) (scan : ScanAll c [] 0 f) (iscsi : f &&& flagIscsi = 0)
    (ipv4 : f &&& flagIpv6 = 0) : FoundAgain f (some c) none img := by
  have hscan : ScanAll c ([] ++ ',' :: img) 0 f :=
    scan.congr fun opts _ => firstToken_comma opts 0 List.not_mem_nil img
  have hfile := NetParse.file hscan iscsi ipv4 List.not_mem_nil
  rw [splitComma_none hcomma, List.append_nil] at hfile
  refine ⟨f, ?_⟩
  rw [relativeOptions, if_neg (by simpa using ipv4)]
  simpa [withAfter] using hfile

/-- A text that is not an option stays where it was; an option is gone over, and the image takes
its place. -/
theorem again_server (hcomma : ',' ∉ img) (ipv4 : f &&& flagIpv6 = 0) (htext : ',' ∉ t) :
    FoundAgain f (some t) none img ↔ ¬ IsOption t := by
  have hstring : relativeOptions f (some t) none img = [] ++ (t ++ ',' :: img) := by
    rw [relativeOptions, if_neg (by simpa using ipv4)]
    simp [withAfter]
  rw [FoundAgain, hstring]
  constructor
  · rintro ⟨g, h⟩
    rcases netParse_some h with ⟨c₁, t₁, hb, -, hscan⟩ | ⟨c₁, c₂, t₁, n, -, hb, hs, -⟩
    · simp only [Option.some.injEq] at hb
      have hnil : c₁ = [] := hscan.closed.nil_of_no_comma fun hin =>
        htext (hb ▸ List.mem_append_left _ hin)
      subst hnil
      rw [List.nil_append] at hb
      subst hb
      exact not_isOption_of_scanAll htext hscan
    · -- there is no room for the comma
      simp only [Option.some.injEq] at hb
      rw [← hb] at hs
      have hlen := congrArg List.length hs
      simp [withAfter] at hlen
  · intro hoption
    have hscan : ScanAll [] (t ++ ',' :: img) 0 0 := scanAll_of_not_isOption htext hoption
    have hfile := NetParse.file hscan rfl rfl htext
    rw [splitComma_none hcomma] at hfile
    exact ⟨0, hfile⟩

/-- A file name is replaced. -/
theorem again_file (hcomma : ',' ∉ img) {p : CStr} (scan : ScanAll c (t ++ ',' :: p) 0 f)
    (iscsi : f &&& flagIscsi = 0) (ipv4 : f &&& flagIpv6 = 0) (htext : ',' ∉ t) :
    FoundAgain f (some (c ++ t)) (splitComma p).2 img := by
  have hscan : ScanAll c (t ++ ',' :: withAfter img (splitComma p).2) 0 f :=
    scan.congr fun opts _ => by rw [firstToken_comma opts 0 htext, firstToken_comma opts 0 htext]
  have hfile := NetParse.file hscan iscsi ipv4 htext
  rw [splitComma_withAfter hcomma] at hfile
  refine ⟨f, ?_⟩
  rw [relativeOptions, if_neg (by simpa using ipv4)]
  simpa using hfile

theorem mark_of_takeWhile {p : Char → Bool} {s s' : CStr}
    (h : s.takeWhile p = filenameMark ++ s') : ∃ r, s = filenameMark ++ r :=
  ⟨s' ++ s.dropWhile p, by rw [← List.append_assoc, ← h, List.takeWhile_append_dropWhile]⟩

theorem takeWhile_mark (hcomma : ',' ∉ img) (after : Option CStr) :
    (filenameMark ++ withAfter img after).takeWhile (· ≠ ',') = filenameMark ++ img := by
  have hno : ',' ∉ filenameMark ++ img := by
    rw [List.mem_append, not_or]
    exact ⟨by decide, hcomma⟩
  have hsplit := congrArg Prod.fst (splitComma_withAfter hno after)
  rwa [withAfter, List.append_assoc] at hsplit

/-- The first scans look at nothing behind `filename=`. -/
theorem firstToken_mark {opts : List DevOption}
    (h : opts ∈ [interfaceOptions, commandKeywords, qualifierOptions]) (s : CStr) :
    firstToken opts 0 (filenameMark ++ s) = .halt 0 0 := by
  have htake : (filenameMark ++ s).takeWhile (· ≠ ',') = filenameMark ++ s.takeWhile (· ≠ ',') :=
    List.takeWhile_append_of_pos fun ch hch => by
      simpa using fun heq : ch = ',' => absurd (heq ▸ hch : ',' ∈ filenameMark) (by decide)
  rw [firstToken, htake]
  exact token_filename_zero h _ _

/-- The scan of the TFTP options stands at `filename=` again, where the token is not too long. -/
theorem again_mark (hcomma : ',' ∉ img) {g : Nat} (scan : ScanAll c (c' ++ (filenameMark ++ t)) 0 g)
    (iscsi : g &&& flagIscsi = 0) (ipv6 : g &&& flagIpv6 ≠ 0) (hflags : f &&& flagIpv6 ≠ 0)
    (options : ScanTftp c' (filenameMark ++ t) g f 9) :
    FoundAgain f (some (c ++ (c' ++ filenameMark))) after img ↔ img.length ≤ 54 := by
  have hstring : relativeOptions f (some (c ++ (c' ++ filenameMark))) after img
      = (c ++ (c' ++ filenameMark)) ++ withAfter img after := by
    rw [relativeOptions, if_pos hflags]
    rfl
  rw [FoundAgain, hstring]
  constructor
  · rintro ⟨g', h⟩
    rcases netParse_some h with ⟨c₁, t₁, hb, hs, -⟩ | ⟨c₁, c₂, t₁, n, g₁, hb, -, hafter, hall, htftp⟩
    · simp only [Option.some.injEq] at hb
      rw [← hb] at hs
      have hlen := congrArg List.length hs
      simp [withAfter] at hlen
    · simp only [Option.some.injEq] at hb
      obtain ⟨mid, flag, hpass, hhalt, -⟩ := htftp
      rcases token_stop hhalt with rfl | ⟨rfl, -, hlen, s, hmark⟩
      · have hclosed := hall.closed.append hpass.closed
        rw [List.take_zero, List.append_nil] at hb
        exact absurd ⟨c ++ c', by rw [List.append_assoc, hb]⟩ hclosed.not_mark
      · obtain ⟨r, rfl⟩ := mark_of_takeWhile hmark
        have hr : r = withAfter img after := hafter
        rw [hr, takeWhile_mark hcomma, List.length_append] at hlen
        have hnine : filenameMark.length = 9 := rfl
        omega
  · intro hlen
    obtain ⟨mid, flag, hpass, hhalt, hf⟩ := options
    obtain ⟨-, rfl, -⟩ : (9 : Nat) = 9 ∧ flag = flagNeedsEqualsign ||| flagFilename ∧ True := by
      rcases token_stop hhalt with hzero | ⟨-, hflag, -⟩
      · cases hzero
      · exact ⟨rfl, hflag, trivial⟩
    have hscan : ScanAll c (c' ++ (filenameMark ++ withAfter img after)) 0 g := by
      refine scan.congr fun opts hopts => ?_
      rcases hpass.nil_or_comma with rfl | hin
      · rw [List.nil_append, List.nil_append, firstToken_mark hopts, firstToken_mark hopts]
      · exact firstToken_append opts 0 hin _ _
    have htftp : ScanTftp c' (filenameMark ++ withAfter img after) g f 9 := by
      refine ⟨mid, _, hpass, ?_, hf⟩
      rw [firstToken, takeWhile_mark hcomma]
      exact token_filename hlen _
    have hfile := NetParse.file6 hscan iscsi ipv6 htftp (by omega)
    rw [show (filenameMark ++ withAfter img after).take 9 = filenameMark from rfl,
      show (filenameMark ++ withAfter img after).drop 9 = withAfter img after from rfl,
      splitComma_withAfter hcomma] at hfile
    refine ⟨f, ?_⟩
    simpa using hfile

/-- Without `filename=` the scan of the TFTP options stands at the image. -/
theorem again_unscanned (hcomma : ',' ∉ img) {g : Nat} (scan : ScanAll c (c' ++ t) 0 g)
    (iscsi : g &&& flagIscsi = 0) (ipv6 : g &&& flagIpv6 ≠ 0) (hflags : f &&& flagIpv6 ≠ 0)
    (options : ScanTftp c' t g f 0) (hfound : 0 < c'.length) :
    FoundAgain f (some (c ++ c')) after img ↔ Unscanned img after.isSome := by
  have hstring : relativeOptions f (some (c ++ c')) after img
      = (c ++ c') ++ withAfter img after := by
    rw [relativeOptions, if_pos hflags]
    rfl
  obtain ⟨mid, flag, hpass, -, -⟩ := options
  have hclosed := scan.closed.append hpass.closed
  rw [FoundAgain, hstring]
  constructor
  · rintro ⟨g', h⟩
    rcases netParse_some h with ⟨c₁, t₁, hb, hs, -⟩ | ⟨c₁, c₂, t₁, n, g₁, hb, -, hafter, -, htftp⟩
    · simp only [Option.some.injEq] at hb
      rw [← hb] at hs
      have hlen := congrArg List.length hs
      simp [withAfter] at hlen
    · simp only [Option.some.injEq] at hb
      obtain ⟨_, flag', -, hhalt, -⟩ := htftp
      rcases token_stop hhalt with rfl | ⟨rfl, -, -, s, hmark⟩
      · rw [List.drop_zero] at hafter
        rw [hafter, firstToken_withAfter _ _ hcomma] at hhalt
        exact ⟨flag', hhalt⟩
      · obtain ⟨r, rfl⟩ := mark_of_takeWhile hmark
        rw [show (filenameMark ++ r).take 9 = filenameMark from rfl] at hb
        exact absurd ⟨c₁ ++ c₂, by rw [List.append_assoc, ← hb]⟩ hclosed.not_mark
  · rintro ⟨flag', hhalt⟩
    have hin : ',' ∈ c' := by
      rcases hpass.nil_or_comma with rfl | hin
      · exact absurd hfound (Nat.lt_irrefl 0)
      · exact hin
    have hscan : ScanAll c (c' ++ withAfter img after) 0 g :=
      scan.congr fun opts _ => firstToken_append opts 0 hin _ _
    have htftp : ScanTftp c' (withAfter img after) g (mid ||| flag') 0 :=
      ⟨mid, flag', hpass, (firstToken_withAfter _ _ hcomma after).trans hhalt, rfl⟩
    have hfile := NetParse.file6 hscan iscsi ipv6 htftp (by omega)
    rw [List.take_zero, List.drop_zero, List.append_nil, splitComma_withAfter hcomma] at hfile
    refine ⟨mid ||| flag', ?_⟩
    simpa using hfile

/-- The image is found again just where the condition holds. -/
theorem again_iff {options : CStr} {name : Option CStr} (hcomma : ',' ∉ img)
    (h : NetParse options flags before after name) :
    FoundAgain flags before after img ↔ RelativeOk flags before after name img := by
  cases h with
  | bare scan iscsi ipv4 =>
    rw [RelativeOk, if_neg (by simpa using ipv4)]
    refine iff_of_true (again_bare hcomma scan iscsi ipv4) fun _ b hb hno => ?_
    obtain rfl : options = b := by simpa using hb
    rw [scan.closed.nil_of_no_comma hno]
    exact not_isOption_nil
  | @server c t f scan iscsi ipv4 hne htext =>
    rw [RelativeOk, if_neg (by simpa using ipv4), again_server hcomma ipv4 htext]
    constructor
    · rintro hoption - b hb -
      obtain rfl : t = b := by simpa using hb
      exact hoption
    · intro hok
      exact hok rfl t rfl htext
  | @file c t p f scan iscsi ipv4 htext =>
    rw [RelativeOk, if_neg (by simpa using ipv4)]
    refine iff_of_true (again_file hcomma scan iscsi ipv4 htext) fun hname => ?_
    cases hname
  | @nothing c t f f' scan iscsi ipv6 options =>
    rw [RelativeOk, if_pos (options.flags_kept ipv6)]
    refine iff_of_false ?_ id
    rintro ⟨g, hg⟩
    rcases netParse_some hg with ⟨_, _, hb, -⟩ | ⟨_, _, _, _, _, hb, -⟩
    · cases hb
    · cases hb
  | @file6 c c' t f f' n scan iscsi ipv6 options found =>
    have hflags := options.flags_kept ipv6
    rw [RelativeOk, if_pos hflags]
    obtain ⟨mid, flag, hpass, hhalt, hf⟩ := id options
    rcases token_stop hhalt with rfl | ⟨rfl, -, -, s, hmark⟩
    · have hclosed := scan.closed.append hpass.closed
      rw [List.take_zero, List.append_nil, if_neg hclosed.not_mark]
      exact again_unscanned hcomma scan iscsi ipv6 hflags options found
    · obtain ⟨r, rfl⟩ := mark_of_takeWhile hmark
      have htake : (filenameMark ++ r).take 9 = filenameMark := rfl
      rw [htake, if_pos ⟨c ++ c', by rw [List.append_assoc]⟩]
      exact again_mark hcomma scan iscsi ipv6 hflags options

end Again

/-! ## §5 Relative images -/

/-- The run for an image with the boot path's device. -/
def RelativeFound (fw : Firmware) (r d : PathDescription) (img : CStr) : Prop :=
  ∃ fuel r', imagepathToPathDescription fw fuel false (some img) r d = some (true, r', d)
    ∧ r'.device = d.device ∧ r'.netBefore = d.netBefore ∧ r'.netAfter = d.netAfter
    ∧ r'.filename = some img

section Relative

variable {fw : Firmware} {fuel : Nat} {d : PathDescription} {img : CStr}

/-- A path on a network device goes to the option parser. -/
theorem parseDevicePath_net {device : CStr} (hcolon : ':' ∉ device)
    (htype : fw.devtype device = .net) (options : CStr) :
    parseDevicePath fw fuel (some (device ++ ':' :: options)) .zero
      = (parseNetDevice fw fuel (netStart device (fw.mac device PathDescription.zero.mac))
          options).map fun r => (true, r) := by
  have hdrop : (device ++ ':' :: options).drop (device.length + 1) = options := by
    rw [← List.drop_drop, List.drop_left]
    rfl
  have hzero : PathDescription.zero.type = .unset := rfl
  simp only [parseDevicePath, hzero, if_true, takeWhile_text hcolon, hdrop, htype]
  rfl

theorem parseBlockDevice_type (result : PathDescription) (options : CStr) :
    (parseBlockDevice result options).type = result.type := by
  simp only [parseBlockDevice]
  split <;> rfl

/-- A path that is parsed to a network device is one. -/
theorem parseDevicePath_is_net {bootpath : CStr}
    (h : parseDevicePath fw fuel (some bootpath) .zero = some (true, d)) (hnet : d.type = .net) :
    ∃ device options, ':' ∉ device ∧ fw.devtype device = .net
      ∧ parseNetDevice fw fuel (netStart device (fw.mac device PathDescription.zero.mac)) options
        = some d := by
  have hzero : PathDescription.zero.type = .unset := rfl
  simp only [parseDevicePath, hzero, if_true] at h
  have hcolon : ':' ∉ bootpath.takeWhile (· ≠ ':') := by
    intro hin
    simpa using List.mem_takeWhile_imp hin
  generalize bootpath.takeWhile (fun c => decide (c ≠ ':')) = device at h hcolon
  cases htype : fw.devtype device with
  | block =>
    rw [htype] at h
    cases h
    rw [parseBlockDevice_type] at hnet
    cases hnet
  | net =>
    rw [htype] at h
    obtain ⟨r, hrun, hr⟩ := Option.map_eq_some_iff.mp h
    cases hr
    exact ⟨device, bootpath.drop (device.length + 1), hcolon, htype, hrun⟩
  | unset => rw [htype] at h; cases h
  | unknown => rw [htype] at h; cases h
  | invalid => rw [htype] at h; cases h
  | iscsi => rw [htype] at h; cases h

/-- An iSCSI path has no file name. -/
theorem parseNetDevice_named {device options name : CStr} {mac : List UInt8}
    (h : parseNetDevice fw fuel (netStart device mac) options = some d)
    (hname : d.filename = some name) : d.type = .net := by
  rcases parseNetDevice_type h with htype | htype
  · exact htype
  · simp only [parseNetDevice, Option.bind_eq_bind] at h
    obtain ⟨⟨flags, offset⟩, -, h⟩ := Option.bind_eq_some_iff.mp h
    simp only at h
    split at h
    · cases h
      simp only [getIscsiOptions] at hname
      split at hname
      · cases hname
      · cases hname
    · simp only [getTftpOptions] at h
      split at h
      · rw [getTftpIpv6Options_type h] at htype
        cases htype
      · cases h
        rw [getTftpIpv4Options_type] at htype
        cases htype

/-- The run for an image without a device of its own. -/
theorem relative_net_run {device : CStr} (hdevice : d.device = some device)
    (hno : ':' ∉ device) (htype : fw.devtype device = .net) (hnet : d.type = .net)
    (hcolon : ':' ∉ img) (r : PathDescription) :
    imagepathToPathDescription fw fuel false (some img) r d
      = (parseNetDevice fw fuel (netStart device (fw.mac device PathDescription.zero.mac))
          (relativeOptions d.flags d.s1 d.s2 img)).map fun r => (true, r, d) := by
  have hpath : defaultPathname d none img
      = some (device ++ ':' :: relativeOptions d.flags d.s1 d.s2 img) := by
    simp only [defaultPathname, hnet, hdevice, PathDescription.netBefore,
      PathDescription.netAfter, relativeOptions, withAfter]
    rcases Option.eq_none_or_eq_some d.s2 with hafter | ⟨after, hafter⟩
    · simp [hafter]
    · simp [hafter]
  have hiscsi : ¬ d.type = .iscsi := by
    rw [hnet]
    decide
  simp only [imagepathToPathDescription, strchr_eq_none.mpr hcolon, Option.map_none,
    Option.isSome_none, Bool.false_eq_true, false_and, if_false, hiscsi, hpath,
    parseDevicePath_net hno htype, Option.map_map]
  rfl

/-- **A relative image is found on the boot server just where the second parse stops at it.** -/
theorem relative_found_iff (fw : Firmware) (fuel : Nat) (bootpath img : CStr)
    (r d : PathDescription) (hboot : fw.bootpResponse = none)
    (h : parseDevicePath fw fuel (some bootpath) .zero = some (true, d)) (hnet : d.type = .net)
    (hcolon : ':' ∉ img) (hcomma : ',' ∉ img) :
    RelativeFound fw r d img ↔ RelativeOk d.flags d.s1 d.s2 d.filename img := by
  obtain ⟨device, options, hno, htype, hparse⟩ := parseDevicePath_is_net h hnet
  obtain ⟨hfirst, hdevice⟩ := parseNetDevice_netParse hboot hparse hnet
  rw [← again_iff hcomma hfirst]
  constructor
  · rintro ⟨fuel', r', hrun, hdev, hbefore, hafter, hname⟩
    rw [relative_net_run hdevice hno htype hnet hcolon] at hrun
    obtain ⟨r₁, hsecond, hr⟩ := Option.map_eq_some_iff.mp hrun
    cases hr
    have hagain := (parseNetDevice_netParse hboot hsecond (parseNetDevice_named hsecond hname)).1
    refine ⟨r'.flags, ?_⟩
    have hone : r'.s1 = d.s1 := hbefore
    have htwo : r'.s2 = d.s2 := hafter
    rwa [hone, htwo, hname] at hagain
  · rintro ⟨f, hagain⟩
    let mac := fw.mac device PathDescription.zero.mac
    let options := relativeOptions d.flags d.s1 d.s2 img
    let found : PathDescription := { netStart device mac with
      flags := f, s1 := d.s1, s2 := d.s2, filename := some img }
    have hsecond : parseNetDevice fw (options.length + 1) (netStart device mac) options
        = some found :=
      parseNetDevice_of_netParse hboot hagain (Nat.lt_succ_self _)
    refine ⟨options.length + 1, found, ?_, ?_⟩
    · rw [relative_net_run hdevice hno htype hnet hcolon, hsecond]
      rfl
    · exact ⟨hdevice.symm, rfl, rfl, rfl⟩

end Relative

/-- All devices are network cards. -/
def netFirmware : Firmware := ⟨fun _ => .net, fun _ mac => mac, none, none⟩

/-- `vmlinux` -/
def vmlinux : CStr := ['v', 'm', 'l', 'i', 'n', 'u', 'x']

/-- What `enet:1.2.3.4,yaboot,1.2.3.42` is parsed into. -/
def serverDescription : PathDescription :=
  { PathDescription.zero with
    type := .net, device := some ['e', 'n', 'e', 't'], s1 := some "1.2.3.4".toList
    s2 := some "1.2.3.42".toList, filename := some "yaboot".toList }

theorem server_relative_found :
    RelativeFound netFirmware .zero serverDescription vmlinux ↔
      RelativeOk serverDescription.flags serverDescription.s1 serverDescription.s2
        serverDescription.filename vmlinux :=
  relative_found_iff netFirmware 40 "enet:1.2.3.4,yaboot,1.2.3.42".toList vmlinux .zero
    serverDescription rfl (by decide +kernel) rfl (by decide) (by decide)

/-- What `enet:bootp` is parsed into. -/
def bootpDescription : PathDescription :=
  { PathDescription.zero with
    type := .net, flags := flagQualifier, device := some ['e', 'n', 'e', 't']
    s1 := some "bootp".toList }

/-- Behind `enet:bootp` the image takes the place of the server. -/
theorem bootp_loses_image :
    parseDevicePath netFirmware 40 (some "enet:bootp".toList) .zero = some (true, bootpDescription)
      ∧ imagepathToPathDescription netFirmware 40 false (some vmlinux) .zero bootpDescription
        = some (true, { bootpDescription with s1 := some vmlinux }, bootpDescription)
      ∧ ¬ RelativeFound netFirmware .zero bootpDescription vmlinux := by
  have hparse : parseDevicePath netFirmware 40 (some "enet:bootp".toList) .zero
      = some (true, bootpDescription) := by
    decide +kernel
  refine ⟨hparse, by decide +kernel, ?_⟩
  have hrun : parseNetDevice netFirmware 40
      (netStart ['e', 'n', 'e', 't'] PathDescription.zero.mac) "bootp".toList
        = some bootpDescription := by
    decide +kernel
  obtain ⟨hfirst, -⟩ := parseNetDevice_netParse rfl hrun rfl
  rintro ⟨fuel, r', hrun, -, hbefore, hafter, hname⟩
  rw [relative_net_run (show bootpDescription.device = some ['e', 'n', 'e', 't'] from rfl)
    (by decide) rfl rfl (by decide)] at hrun
  obtain ⟨r₁, hsecond, hr⟩ := Option.map_eq_some_iff.mp hrun
  cases hr
  have hagain := (parseNetDevice_netParse rfl hsecond (parseNetDevice_named hsecond hname)).1
  rw [show r'.s1 = bootpDescription.s1 from hbefore, show r'.s2 = none from hafter, hname] at hagain
  have hok := (again_iff (by decide) hfirst).mp ⟨r'.flags, hagain⟩
  refine hok rfl _ rfl (by decide) ⟨qualifierOptions, by simp, ?_⟩
  decide +kernel

end LiloBoot.DevPath
