/-
LiloBoot.DevPath.Ipv6Theorems — what is made of the options of an IPv6 path.

The options of the interface, the qualifiers with `ipv6` among them, the TFTP
options and `filename=` are taken apart and put together again. The scans run
one behind the other, each over the table of its own. So they get to the file
name if the options of the interface stand first, and if every token, the one
with the file name too, fits the buffer of 64 bytes it is copied to.
-/
import LiloBoot.DevPath.OptionTheorems

namespace LiloBoot.DevPath

/-! ## §1 Tokens -/

/-- A token without an entry stops the scan. -/
theorem token_unknown {opts : List DevOption} {stopflag : Nat} {b : CStr}
    (h : ∀ opt ∈ opts, optionName b ≠ opt.name) (comma : Bool) :
    token opts stopflag b comma = .halt 0 0 := by
  rw [token, matchOption_none opts h]
  exact ite_self _

theorem joinTokens_injective : ∀ {bs bs' : List CStr}, (∀ b ∈ bs, ',' ∉ b) → (∀ b ∈ bs', ',' ∉ b) →
    joinTokens bs = joinTokens bs' → bs = bs' := by
  intro bs
  induction bs with
  | nil =>
    intro bs' _ _ h
    cases bs' with
    | nil => rfl
    | cons b bs' => simp [joinTokens_cons] at h
  | cons b bs ih =>
    intro bs' hbs hbs' h
    cases bs' with
    | nil => simp [joinTokens_cons] at h
    | cons b' bs' =>
      rw [joinTokens_cons, joinTokens_cons] at h
      have hsplit := congrArg splitComma h
      rw [splitComma_comma (hbs b List.mem_cons_self),
        splitComma_comma (hbs' b' List.mem_cons_self)] at hsplit
      simp only [Prod.mk.injEq, Option.some.injEq] at hsplit
      obtain ⟨rfl, hrest⟩ := hsplit
      rw [ih (fun c hc => hbs c (List.mem_cons_of_mem _ hc))
        (fun c hc => hbs' c (List.mem_cons_of_mem _ hc)) hrest]

theorem Closed.no_tail {c a : CStr} (h : Closed (c ++ a)) (ha : ',' ∉ a) : a = [] := by
  rcases h with hnil | ⟨c₀, hlast⟩
  · exact (List.append_eq_nil_iff.mp hnil).2
  · rcases List.eq_nil_or_concat a with rfl | ⟨a₀, x, rfl⟩
    · rfl
    · rw [List.concat_eq_append, ← List.append_assoc] at hlast
      obtain ⟨-, hx⟩ := List.append_inj' hlast rfl
      cases hx
      exact absurd (by simp) ha

/-- A text that ends in a comma, or is nothing, and one without commas are told apart. -/
theorem closed_append_injective {c c' t t' : CStr} (hc : Closed c) (hc' : Closed c')
    (ht : ',' ∉ t) (ht' : ',' ∉ t') (h : c ++ t = c' ++ t') : c = c' ∧ t = t' := by
  rcases List.append_eq_append_iff.mp h with ⟨a, rfl, rfl⟩ | ⟨a, rfl, rfl⟩
  · obtain rfl := hc'.no_tail fun ha => ht (List.mem_append_left _ ha)
    exact ⟨(List.append_nil c).symm, rfl⟩
  · obtain rfl := hc.no_tail fun ha => ht' (List.mem_append_left _ ha)
    exact ⟨List.append_nil c', rfl⟩

theorem joinTokens_closed (bs : List CStr) : Closed (joinTokens bs) := by
  induction bs with
  | nil => exact .inl rfl
  | cons b bs ih =>
    have hone : Closed (b ++ [',']) := .inr ⟨b, rfl⟩
    rw [joinTokens_cons, List.append_cons]
    exact hone.append ih

/-- The flags of a run are those before it and those of the entries. -/
theorem passes_flags {opts : List DevOption} {stopflag : Nat}
    (htable : (opts, stopflag) ∈ scanTables) {bs : List CStr}
    (hknown : ∀ b ∈ bs, KnownToken opts stopflag b) : ∀ {flags flags'},
    Passes opts stopflag (joinTokens bs) flags flags' → ∀ m, flags' &&& m ≠ 0 ↔
      flags &&& m ≠ 0 ∨ ∃ b ∈ bs, ∃ opt ∈ opts, opt.Takes b ∧ opt.flag &&& m ≠ 0 := by
  induction bs with
  | nil =>
    intro flags flags' hpass m
    rw [hpass.of_nil]
    simp
  | cons b bs ih =>
    intro flags flags' hpass m
    obtain ⟨htext, hlen, opt, hmem, htakes, hstop⟩ := hknown b List.mem_cons_self
    rw [joinTokens_cons] at hpass
    generalize hc : b ++ ',' :: joinTokens bs = c at hpass
    cases hpass with
    | nil => simp at hc
    | @cons b' c _ flag _ htext' hfirst hrest =>
      have hsplit := congrArg splitComma hc
      rw [splitComma_comma htext, splitComma_comma htext'] at hsplit
      simp only [Prod.mk.injEq, Option.some.injEq] at hsplit
      obtain ⟨rfl, rfl⟩ := hsplit
      have hflag : flag = opt.flag := by
        rw [token_takes htable hlen hmem htakes, if_neg (not_not.mpr hstop), if_pos rfl] at hfirst
        cases hfirst
        rfl
      subst hflag
      rw [ih (fun c hc => hknown c (List.mem_cons_of_mem _ hc)) hrest m, Nat.and_or_distrib_right,
        Ne, Nat.or_eq_zero_iff, not_and_or]
      have hone : ∀ opt' ∈ opts, opt'.Takes b → opt' = opt := by
        intro opt' hmem' htakes'
        exact List.inj_on_of_nodup_map (scanTables_nodup _ htable) hmem' hmem
          (htakes'.1.symm.trans htakes.1)
      constructor
      · rintro ((hold | hnew) | ⟨b', hb', hrest⟩)
        · exact .inl hold
        · exact .inr ⟨b, List.mem_cons_self, opt, hmem, htakes, hnew⟩
        · exact .inr ⟨b', List.mem_cons_of_mem _ hb', hrest⟩
      · rintro (hold | ⟨b', hb', opt', hmem', htakes', hnew⟩)
        · exact .inl (.inl hold)
        · rcases List.mem_cons.mp hb' with rfl | hb'
          · rw [hone opt' hmem' htakes'] at hnew
            exact .inl (.inr hnew)
          · exact .inr ⟨b', hb', opt', hmem', htakes', hnew⟩

/-! ## §2 The options of an IPv6 path -/

/-- `ipv6` -/
def ipv6Name : CStr := "ipv6".toList

/-- `dhcpv6` -/
def dhcpv6Name : CStr := "dhcpv6".toList

/-- The options up to the file name, the file name, and what follows it. -/
structure Ipv6Options where
  options : List CStr
  bootstrap : List CStr
  name : CStr
  rest : Option CStr
  options_known : ∀ b ∈ options, ',' ∉ b ∧ ∃ opt ∈ interfaceOptions ++ qualifierOptions, opt.Takes b
  ipv6 : ∃ b ∈ options, optionName b = ipv6Name
  bootstrap_known : ∀ b ∈ bootstrap, ',' ∉ b ∧ ∃ opt ∈ tftpIpv6BootstrapOptions,
    opt.Takes b ∧ opt.flag &&& flagFilename = 0
  name_text : ',' ∉ name

namespace Ipv6Options

/-- Everything up to and including `filename=`. -/
def before (p : Ipv6Options) : CStr := joinTokens (p.options ++ p.bootstrap) ++ filenameMark

/-- The option string. -/
def text (p : Ipv6Options) : CStr := p.before ++ withAfter p.name p.rest

/-- The path is taken apart at the file name, and comes back. -/
def Decomposed (p : Ipv6Options) (fw : Firmware) (device : CStr) : Prop :=
  ∃ d, (∀ fuel, p.text.length < fuel →
      parseDevicePath fw fuel (some (device ++ ':' :: p.text)) .zero = some (true, d))
    ∧ d.netBefore = some p.before ∧ d.filename = some p.name ∧ d.netAfter = p.rest
    ∧ pathDescriptionToString d = some (device ++ ':' :: p.text)

/-- The options of the interface stand first, and every token fits the buffer. -/
structure Fits (p : Ipv6Options) : Prop where
  ordered : ∃ front back, p.options = front ++ back
    ∧ (∀ b ∈ front, ∃ opt ∈ interfaceOptions, opt.Takes b)
    ∧ ∀ b ∈ back, ∃ opt ∈ qualifierOptions, opt.Takes b
  short : ∀ b ∈ p.options ++ p.bootstrap, b.length ≤ 63
  name : (filenameMark ++ p.name).length ≤ 63

end Ipv6Options

/-! ## §3 Options that fit -/

/-- The parser at `filename=`, whatever `/chosen` says. -/
theorem parseNetDevice_file6 {fw : Firmware} {fuel : Nat} {device : CStr} {mac : List UInt8}
    {c c' t : CStr} {f f' n : Nat} (scan : ScanAll c (c' ++ t) 0 f) (iscsi : f &&& flagIscsi = 0)
    (ipv6 : f &&& flagIpv6 ≠ 0) (options : ScanTftp c' t f f' n) (found : 0 < c'.length + n)
    (hfuel : (c ++ (c' ++ t)).length < fuel) :
    parseNetDevice fw fuel (netStart device mac) (c ++ (c' ++ t))
      = some { netStart device mac with
          flags := f', s1 := some (c ++ (c' ++ t.take n)), s2 := (splitComma (t.drop n)).2
          filename := some (splitComma (t.drop n)).1 } := by
  have hflags : (netStart device mac).flags = 0 := rfl
  simp only [parseNetDevice, hflags, Option.bind_eq_bind, scanOptions_of_scan scan hfuel,
    Option.bind_some, iscsi, getTftpOptions, ipv6, ne_eq, not_true_eq_false, not_false_eq_true,
    if_true, if_false]
  rw [getTftpIpv6Options_eq (parseOptions_tftp options hfuel), if_neg (by omega)]
  cases (splitComma (t.drop n)).2 with
  | none => rfl
  | some after => rfl

/-- The entries that set the two flags the parser asks for. -/
theorem interface_flags : ∀ opt ∈ interfaceOptions,
    opt.flag &&& flagIscsi = 0 ∧ opt.flag &&& flagIpv6 = 0 := by
  decide

theorem qualifier_flags : ∀ opt ∈ qualifierOptions,
    opt.flag &&& flagIscsi = 0 ∧ (opt.flag &&& flagIpv6 ≠ 0 ↔ opt.name = ipv6Name) := by
  decide

theorem command_flags : ∀ opt ∈ commandKeywords, opt.flag &&& flagIpv6 = 0 := by
  decide

/-- No name is in two of the tables but `dhcpv6`. -/
theorem interface_not_qualifier : ∀ opt ∈ interfaceOptions,
    ∀ opt' ∈ commandKeywords ++ qualifierOptions ++ tftpIpv6BootstrapOptions,
      opt.name ≠ opt'.name := by
  decide

theorem command_not_known : ∀ opt ∈ commandKeywords,
    ∀ opt' ∈ interfaceOptions ++ qualifierOptions ++ tftpIpv6BootstrapOptions,
      opt.name ≠ opt'.name := by
  decide

/-- A qualifier `dhcpv6` needs no equal sign. -/
theorem dhcpv6_qualifier : ∃ opt ∈ qualifierOptions, opt.name = dhcpv6Name
    ∧ opt.flag &&& flagNeedsEqualsign = 0 := by
  decide

theorem bootstrap_not_qualifier : ∀ opt ∈ tftpIpv6BootstrapOptions, opt.name ≠ dhcpv6Name →
    ∀ opt' ∈ qualifierOptions, opt.name ≠ opt'.name := by
  decide

theorem interface_ne_ipv6 : ∀ opt ∈ interfaceOptions, opt.name ≠ ipv6Name := by
  decide

theorem not_named {opts : List DevOption} {b : CStr} {opt : DevOption} (htakes : opt.Takes b)
    (hne : ∀ opt' ∈ opts, opt.name ≠ opt'.name) : ∀ opt' ∈ opts, optionName b ≠ opt'.name :=
  fun opt' hmem heq => hne opt' hmem (htakes.1.symm.trans heq)

theorem firstToken_join {opts : List DevOption} {stopflag : Nat} {b : CStr} (htext : ',' ∉ b)
    (bs : List CStr) (t : CStr) :
    firstToken opts stopflag (joinTokens (b :: bs) ++ t) = token opts stopflag b true := by
  rw [joinTokens_cons, List.append_assoc, List.cons_append, firstToken_comma opts stopflag htext]

/-- A scan over known tokens, up to one where it stops. -/
theorem scan_known {opts : List DevOption} {stopflag : Nat}
    (htable : (opts, stopflag) ∈ scanTables) {bs : List CStr}
    (hknown : ∀ b ∈ bs, KnownToken opts stopflag b) {t : CStr} {flag n : Nat}
    (hhalt : firstToken opts stopflag t = .halt flag n) (flags : Nat) :
    ∃ mid, Scan opts stopflag (joinTokens bs) t flags (mid ||| flag) n ∧ ∀ m, mid &&& m ≠ 0 ↔
      flags &&& m ≠ 0 ∨ ∃ b ∈ bs, ∃ opt ∈ opts, opt.Takes b ∧ opt.flag &&& m ≠ 0 := by
  obtain ⟨mid, hpass⟩ := (@passes_iff _ _ htable _ flags).mpr ⟨bs, rfl, hknown⟩
  exact ⟨mid, ⟨mid, flag, hpass, hhalt, rfl⟩, passes_flags htable hknown hpass⟩

namespace Ipv6Options

variable {p : Ipv6Options}

/-- Options that fit are scanned up to the file name. -/
theorem scan_of_fits (h : p.Fits) : ∃ c c' f f',
    c ++ c' = joinTokens (p.options ++ p.bootstrap)
      ∧ ScanAll c (c' ++ (filenameMark ++ withAfter p.name p.rest)) 0 f
      ∧ ScanTftp c' (filenameMark ++ withAfter p.name p.rest) f f' 9
      ∧ f &&& flagIscsi = 0 ∧ f &&& flagIpv6 ≠ 0 := by
  obtain ⟨front, back, hsplit, hfront, hback⟩ := h.ordered
  let ds := p.bootstrap.takeWhile (optionName · = dhcpv6Name)
  let ts := p.bootstrap.dropWhile (optionName · = dhcpv6Name)
  have hboot : p.bootstrap = ds ++ ts := List.takeWhile_append_dropWhile.symm
  have hknown₁ : ∀ b ∈ front, KnownToken interfaceOptions 0 b := by
    intro b hb
    have hin : b ∈ p.options := by rw [hsplit]; exact List.mem_append_left _ hb
    obtain ⟨opt, hmem, htakes⟩ := hfront b hb
    exact ⟨(p.options_known b hin).1, h.short b (List.mem_append_left _ hin), opt, hmem, htakes,
      Nat.and_zero _⟩
  have hback_known : ∀ b ∈ back, KnownToken qualifierOptions 0 b := by
    intro b hb
    have hin : b ∈ p.options := by rw [hsplit]; exact List.mem_append_right _ hb
    obtain ⟨opt, hmem, htakes⟩ := hback b hb
    exact ⟨(p.options_known b hin).1, h.short b (List.mem_append_left _ hin), opt, hmem, htakes,
      Nat.and_zero _⟩
  have hknown₃ : ∀ b ∈ back ++ ds, KnownToken qualifierOptions 0 b := by
    intro b hb
    rcases List.mem_append.mp hb with hb | hb
    · exact hback_known b hb
    · have hin : b ∈ p.bootstrap := by rw [hboot]; exact List.mem_append_left _ hb
      have hname : optionName b = dhcpv6Name := by simpa using List.mem_takeWhile_imp hb
      obtain ⟨opt, hmem, hopt, hflag⟩ := dhcpv6_qualifier
      exact ⟨(p.bootstrap_known b hin).1, h.short b (List.mem_append_right _ hin), opt, hmem,
        ⟨hname.trans hopt.symm, .inr hflag⟩, Nat.and_zero _⟩
  have hknown₄ : ∀ b ∈ ts, KnownToken tftpIpv6BootstrapOptions flagFilename b := by
    intro b hb
    have hin : b ∈ p.bootstrap := by rw [hboot]; exact List.mem_append_right _ hb
    obtain ⟨htext, opt, hmem, htakes, hstop⟩ := p.bootstrap_known b hin
    exact ⟨htext, h.short b (List.mem_append_right _ hin), opt, hmem, htakes, hstop⟩
  -- `ipv6` is a qualifier, so there is a token the scan of the interface stops at
  obtain ⟨b₆, hb₆, hname₆⟩ := p.ipv6
  have hin₆ : b₆ ∈ back := by
    rw [hsplit] at hb₆
    rcases List.mem_append.mp hb₆ with hb₆ | hb₆
    · obtain ⟨opt, hmem, htakes⟩ := hfront b₆ hb₆
      exact absurd (htakes.1.symm.trans hname₆) (interface_ne_ipv6 opt hmem)
    · exact hb₆
  obtain ⟨b₀, back', hcons⟩ := List.exists_cons_of_ne_nil (List.ne_nil_of_mem hin₆)
  have hb₀ : b₀ ∈ back := by rw [hcons]; exact List.mem_cons_self
  obtain ⟨opt₀, hmem₀, htakes₀⟩ := hback b₀ hb₀
  have hstop₁ : ∀ t, firstToken interfaceOptions 0 (joinTokens (back ++ ds) ++ t) = .halt 0 0 := by
    intro t
    rw [hcons, List.cons_append, firstToken_join (hback_known b₀ hb₀).1]
    exact token_unknown (not_named htakes₀ fun opt hmem =>
      (interface_not_qualifier opt hmem opt₀ (by simp [hmem₀])).symm) true
  have hstop₂ : ∀ t, firstToken commandKeywords 0 (joinTokens (back ++ ds) ++ t) = .halt 0 0 := by
    intro t
    rw [hcons, List.cons_append, firstToken_join (hback_known b₀ hb₀).1]
    exact token_unknown (not_named htakes₀ fun opt hmem =>
      (command_not_known opt hmem opt₀ (by simp [hmem₀])).symm) true
  have hstop₃ : ∀ t, firstToken qualifierOptions 0 (joinTokens ts ++ (filenameMark ++ t))
      = .halt 0 0 := by
    intro t
    cases hts : ts with
    | nil => exact firstToken_mark (by simp) t
    | cons b ts' =>
      have hb : b ∈ ts := by rw [hts]; exact List.mem_cons_self
      have hin : b ∈ p.bootstrap := by rw [hboot]; exact List.mem_append_right _ hb
      obtain ⟨htext, opt, hmem, htakes, -⟩ := p.bootstrap_known b hin
      have hhead := List.head?_dropWhile_not (fun b => decide (optionName b = dhcpv6Name)) p.bootstrap
      rw [show p.bootstrap.dropWhile (fun b => decide (optionName b = dhcpv6Name)) = b :: ts' from hts]
        at hhead
      have hne : opt.name ≠ dhcpv6Name := by
        rw [← htakes.1]
        simpa using hhead
      rw [firstToken_join htext]
      exact token_unknown (not_named htakes (bootstrap_not_qualifier opt hmem hne)) true
  have hstop₄ : firstToken tftpIpv6BootstrapOptions flagFilename
      (filenameMark ++ withAfter p.name p.rest) = .halt (flagNeedsEqualsign ||| flagFilename) 9 := by
    have hlen := h.name
    rw [List.length_append, show filenameMark.length = 9 from rfl] at hlen
    rw [firstToken, takeWhile_mark p.name_text]
    exact token_filename (by omega) _
  obtain ⟨m₁, hscan₁, hflags₁⟩ := scan_known (by decide) hknown₁ (hstop₁ _) 0
  obtain ⟨m₂, hscan₂, hflags₂⟩ := scan_known (by decide)
    (fun b hb => absurd hb List.not_mem_nil) (hstop₂ _) (m₁ ||| 0)
  obtain ⟨m₃, hscan₃, hflags₃⟩ := scan_known (by decide) hknown₃
    (hstop₃ (withAfter p.name p.rest)) (m₂ ||| 0)
  obtain ⟨m₄, hscan₄, -⟩ := scan_known (by decide) hknown₄ hstop₄ (m₃ ||| 0)
  refine ⟨joinTokens front ++ ([] ++ joinTokens (back ++ ds)), joinTokens ts, m₃ ||| 0, _, ?_,
    ⟨_, _, _, _, _, rfl, hscan₁, hscan₂, hscan₃⟩, hscan₄, ?_, ?_⟩
  · rw [hsplit, hboot]
    simp only [joinTokens_append, List.nil_append, List.append_assoc]
  · rw [Nat.or_zero]
    by_contra hne
    rcases (hflags₃ _).mp hne with hne | ⟨b, hb, opt, hmem, -, hflag⟩
    · rw [Nat.or_zero] at hne
      rcases (hflags₂ _).mp hne with hne | ⟨b, hb, -⟩
      · rw [Nat.or_zero] at hne
        rcases (hflags₁ _).mp hne with hne | ⟨b, hb, opt, hmem, -, hflag⟩
        · exact hne (Nat.zero_and _)
        · exact hflag (interface_flags opt hmem).1
      · exact List.not_mem_nil hb
    · exact hflag (qualifier_flags opt hmem).1
  · obtain ⟨opt, hmem, htakes⟩ := hback b₆ hin₆
    rw [Nat.or_zero]
    exact (hflags₃ _).mpr (.inr ⟨b₆, List.mem_append_left _ hin₆, opt, hmem, htakes,
      (qualifier_flags opt hmem).2.mpr (htakes.1.symm.trans hname₆)⟩)

theorem decomposed_of_fits {fw : Firmware} {device : CStr} (hcolon : ':' ∉ device)
    (htype : fw.devtype device = .net) (h : p.Fits) : p.Decomposed fw device := by
  obtain ⟨c, c', f, f', hjoin, hall, htftp, hiscsi, hipv6⟩ := scan_of_fits h
  have htext : p.text = c ++ (c' ++ (filenameMark ++ withAfter p.name p.rest)) := by
    rw [text, before, ← hjoin]
    simp only [List.append_assoc]
  have hbefore : c ++ (c' ++ filenameMark) = p.before := by
    rw [before, ← hjoin, List.append_assoc]
  have htake : (filenameMark ++ withAfter p.name p.rest).take 9 = filenameMark :=
    @List.take_left _ filenameMark _
  have hdrop : (filenameMark ++ withAfter p.name p.rest).drop 9 = withAfter p.name p.rest :=
    @List.drop_left _ filenameMark _
  have hipv6' : f' &&& flagIpv6 ≠ 0 := htftp.flags_kept hipv6
  let d : PathDescription :=
    { netStart device (fw.mac device PathDescription.zero.mac) with
      flags := f', s1 := some p.before, s2 := p.rest, filename := some p.name }
  have hstring : pathDescriptionToString d = some (device ++ ':' :: p.text) := by
    show some (device ++ ':' :: p.before ++ (if f' &&& flagIpv6 ≠ 0 then [] else [','])
      ++ p.name ++ (p.rest.map (',' :: ·)).getD []) = _
    rw [if_pos hipv6', text, withAfter]
    simp only [List.append_nil, List.append_assoc, List.cons_append]
  refine ⟨d, fun fuel hfuel => ?_, rfl, rfl, rfl, hstring⟩
  have hrun := @parseNetDevice_file6 fw fuel device (fw.mac device PathDescription.zero.mac)
    _ _ _ _ _ _ hall hiscsi hipv6 htftp (by omega) (by rwa [← htext])
  rw [htake, hdrop, splitComma_withAfter p.name_text, hbefore] at hrun
  rw [parseDevicePath_net hcolon htype, htext, hrun]
  rfl

end Ipv6Options

/-! ## §4 Options that are taken apart -/

namespace Ipv6Options

variable {p : Ipv6Options}

theorem tokens_text (p : Ipv6Options) : ∀ b ∈ p.options ++ p.bootstrap, ',' ∉ b := by
  intro b hb
  rcases List.mem_append.mp hb with hb | hb
  · exact (p.options_known b hb).1
  · exact (p.bootstrap_known b hb).1

/-- The token is no command, whichever part it is in. -/
theorem not_command (p : Ipv6Options) : ∀ b ∈ p.options ++ p.bootstrap,
    ∀ opt ∈ commandKeywords, ¬ opt.Takes b := by
  intro b hb opt hmem htakes
  obtain ⟨opt', hmem', htakes'⟩ : ∃ opt' ∈ interfaceOptions ++ qualifierOptions
      ++ tftpIpv6BootstrapOptions, opt'.Takes b := by
    rcases List.mem_append.mp hb with hb | hb
    · obtain ⟨-, opt', hmem', htakes'⟩ := p.options_known b hb
      exact ⟨opt', List.mem_append_left _ hmem', htakes'⟩
    · obtain ⟨-, opt', hmem', htakes', -⟩ := p.bootstrap_known b hb
      exact ⟨opt', List.mem_append_right _ hmem', htakes'⟩
  exact command_not_known opt hmem opt' hmem' (htakes.1.symm.trans htakes'.1)

/-- Scans that go over all the tokens show that they fit. -/
theorem ordered_of_known {bs₁ bs₂ bs₃ bs₄ : List CStr}
    (hall : p.options ++ p.bootstrap = bs₁ ++ (bs₂ ++ (bs₃ ++ bs₄)))
    (h₁ : ∀ b ∈ bs₁, KnownToken interfaceOptions 0 b)
    (h₂ : ∀ b ∈ bs₂, KnownToken commandKeywords 0 b)
    (h₃ : ∀ b ∈ bs₃, KnownToken qualifierOptions 0 b)
    (h₄ : ∀ b ∈ bs₄, KnownToken tftpIpv6BootstrapOptions flagFilename b) :
    (∃ front back, p.options = front ++ back
      ∧ (∀ b ∈ front, ∃ opt ∈ interfaceOptions, opt.Takes b)
      ∧ ∀ b ∈ back, ∃ opt ∈ qualifierOptions, opt.Takes b)
    ∧ ∀ b ∈ p.options ++ p.bootstrap, b.length ≤ 63 := by
  constructor
  · rcases List.append_eq_append_iff.mp hall with ⟨a, hfront, -⟩ | ⟨a, hback, hrest⟩
    · refine ⟨p.options, [], (List.append_nil _).symm, fun b hb => ?_,
        fun b hb => absurd hb List.not_mem_nil⟩
      obtain ⟨-, -, opt, hmem, htakes, -⟩ := h₁ b (by rw [hfront]; exact List.mem_append_left _ hb)
      exact ⟨opt, hmem, htakes⟩
    · refine ⟨bs₁, a, hback, fun b hb => ?_, fun b hb => ?_⟩
      · obtain ⟨-, -, opt, hmem, htakes, -⟩ := h₁ b hb
        exact ⟨opt, hmem, htakes⟩
      · have hopt : b ∈ p.options := by rw [hback]; exact List.mem_append_right _ hb
        have hin : b ∈ bs₂ ++ (bs₃ ++ bs₄) := by rw [hrest]; exact List.mem_append_left _ hb
        obtain ⟨-, opt, hmem, htakes⟩ := p.options_known b hopt
        -- an option of the interface is in no other table
        have hother : ∀ opt' ∈ commandKeywords ++ qualifierOptions ++ tftpIpv6BootstrapOptions,
            opt'.Takes b → ∃ opt ∈ qualifierOptions, opt.Takes b := by
          intro opt' hmem' htakes'
          rcases List.mem_append.mp hmem with hmem | hmem
          · exact absurd (htakes.1.symm.trans htakes'.1)
              (interface_not_qualifier opt hmem opt' hmem')
          · exact ⟨opt, hmem, htakes⟩
        rcases List.mem_append.mp hin with hin | hin
        · obtain ⟨-, -, opt', hmem', htakes', -⟩ := h₂ b hin
          exact hother opt' (by simp [hmem']) htakes'
        · rcases List.mem_append.mp hin with hin | hin
          · obtain ⟨-, -, opt', hmem', htakes', -⟩ := h₃ b hin
            exact hother opt' (by simp [hmem']) htakes'
          · obtain ⟨-, -, opt', hmem', htakes', -⟩ := h₄ b hin
            exact hother opt' (by simp [hmem']) htakes'
  · intro b hb
    rw [hall] at hb
    rcases List.mem_append.mp hb with hb | hb
    · exact (h₁ b hb).2.1
    · rcases List.mem_append.mp hb with hb | hb
      · exact (h₂ b hb).2.1
      · rcases List.mem_append.mp hb with hb | hb
        · exact (h₃ b hb).2.1
        · exact (h₄ b hb).2.1

end Ipv6Options

theorem equal_not_in_decimal (n : Nat) : '=' ∉ decimal n :=
  fun h => absurd (decimal_isDigit h) (by decide)

/-- An address has no equal sign. -/
theorem equal_not_in_ipv4 (ip : Nat) : '=' ∉ ipv4ToAscii ip := by
  simp [ipv4ToAscii, equal_not_in_decimal]

theorem ipv4ToAscii_ne_nil (ip : Nat) : ipv4ToAscii ip ≠ [] := by
  simp [ipv4ToAscii]

/-- What stands before the file name does not end in `filename=` if it ends in an address. -/
theorem address_not_mark (c : CStr) (ip : Nat) : ¬ filenameMark <:+ c ++ ipv4ToAscii ip := by
  rintro ⟨x, hx⟩
  obtain ⟨a, y, hay⟩ := List.eq_nil_or_concat (ipv4ToAscii ip) |>.resolve_left (ipv4ToAscii_ne_nil ip)
  have hmark : filenameMark = ['f', 'i', 'l', 'e', 'n', 'a', 'm', 'e'] ++ ['='] := rfl
  rw [hay, List.concat_eq_append, hmark, ← List.append_assoc, ← List.append_assoc] at hx
  have hy : y = '=' := by simpa using (List.append_inj' hx rfl).2.symm
  refine equal_not_in_ipv4 ip ?_
  rw [hay, hy]
  simp

/-- What the IPv4 options put before the file name. -/
theorem getTftpIpv4Options_before (fw : Firmware) (path : PathDescription) {c t : CStr}
    {before : CStr} (h : (getTftpIpv4Options fw path (c ++ t) c.length).s1 = some before)
    (hmark : filenameMark <:+ before) :
    (t = [] ∧ before = c) ∨ ',' ∉ before ∨ ∃ server p, t = server ++ ',' :: p ∧ ',' ∉ server
      ∧ before = c ++ server := by
  simp only [getTftpIpv4Options, List.drop_left] at h
  split at h
  · rename_i hempty
    subst hempty
    simp only [List.append_nil, Option.some.injEq] at h
    exact .inl ⟨rfl, h.symm⟩
  · rename_i hne
    cases hcas : getTftpIpv4IbmCAS fw path (c ++ t) c.length with
    | some d =>
      rw [hcas] at h
      simp only [getTftpIpv4IbmCAS] at hcas
      cases hboot : fw.bootpResponse with
      | none => rw [hboot] at hcas; cases hcas
      | some response =>
        rw [hboot] at hcas
        simp only [List.take_left, Option.some.injEq] at hcas
        rw [← hcas] at h
        simp only [Option.some.injEq] at h
        exact absurd (h ▸ hmark) (address_not_mark c _)
    | none =>
      rw [hcas] at h
      by_cases hcomma : ',' ∈ t
      · obtain ⟨server, p, rfl, hserver⟩ := List.eq_append_cons_of_mem hcomma
        simp only [splitComma_comma hserver] at h
        rw [take_append_take, List.take_left] at h
        refine .inr (.inr ⟨server, p, rfl, hserver, ?_⟩)
        cases hafter : (splitComma p).2 with
        | none => simp only [hafter, Option.some.injEq] at h; exact h.symm
        | some after => simp only [hafter, Option.some.injEq] at h; exact h.symm
      · simp only [splitComma_none hcomma, Option.some.injEq] at h
        exact .inr (.inl (h ▸ hcomma))

namespace Ipv6Options

variable {p : Ipv6Options}

theorem comma_in_before (p : Ipv6Options) : ',' ∈ p.before := by
  obtain ⟨b, hb, -⟩ := p.ipv6
  obtain ⟨b', bs, hcons⟩ := List.exists_cons_of_ne_nil
    (List.ne_nil_of_mem (List.mem_append_left p.bootstrap hb))
  rw [before, hcons, joinTokens_cons]
  simp

theorem mark_before (p : Ipv6Options) : filenameMark <:+ p.before := List.suffix_append _ _

/-- What the first three scans go over, token by token. -/
theorem scanAll_tokens {c t : CStr} {f : Nat} (h : ScanAll c t 0 f) : ∃ bs₁ bs₂ bs₃,
    c = joinTokens (bs₁ ++ (bs₂ ++ bs₃)) ∧ (∀ b ∈ bs₁, KnownToken interfaceOptions 0 b)
      ∧ (∀ b ∈ bs₂, KnownToken commandKeywords 0 b) ∧ (∀ b ∈ bs₃, KnownToken qualifierOptions 0 b)
      ∧ ((∃ b ∈ bs₃, optionName b = ipv6Name) → f &&& flagIpv6 ≠ 0) := by
  obtain ⟨c₁, c₂, c₃, f₁, f₂, rfl, ⟨m₁, g₁, h₁, -⟩, ⟨m₂, g₂, h₂, -⟩, ⟨m₃, g₃, h₃, -, rfl⟩⟩ := h
  obtain ⟨bs₁, rfl, hknown₁⟩ := (passes_iff (by decide)).mp ⟨m₁, h₁⟩
  obtain ⟨bs₂, rfl, hknown₂⟩ := (passes_iff (by decide)).mp ⟨m₂, h₂⟩
  obtain ⟨bs₃, rfl, hknown₃⟩ := (passes_iff (by decide)).mp ⟨m₃, h₃⟩
  refine ⟨bs₁, bs₂, bs₃, by simp only [joinTokens_append], hknown₁, hknown₂, hknown₃, ?_⟩
  rintro ⟨b, hb, hname⟩
  obtain ⟨-, -, opt, hmem, htakes, -⟩ := hknown₃ b hb
  exact or_and_ne_zero _ ((passes_flags (by decide) hknown₃ h₃ flagIpv6).mpr
    (.inr ⟨b, hb, opt, hmem, htakes, (qualifier_flags opt hmem).2.mpr (htakes.1.symm.trans hname)⟩))

/-- Over all the tokens, the scans find `ipv6`. -/
theorem ipv6_of_scanAll {t : CStr} {f : Nat}
    (h : ScanAll (joinTokens (p.options ++ p.bootstrap)) t 0 f) : f &&& flagIpv6 ≠ 0 := by
  obtain ⟨bs₁, bs₂, bs₃, hc, h₁, h₂, h₃, hflag⟩ := scanAll_tokens h
  have htext : ∀ b ∈ bs₁ ++ (bs₂ ++ bs₃), ',' ∉ b := by
    intro b hb
    rcases List.mem_append.mp hb with hb | hb
    · exact (h₁ b hb).1
    · rcases List.mem_append.mp hb with hb | hb
      · exact (h₂ b hb).1
      · exact (h₃ b hb).1
  have hall := joinTokens_injective p.tokens_text htext hc
  obtain ⟨b, hb, hname⟩ := p.ipv6
  have hin : b ∈ bs₁ ++ (bs₂ ++ bs₃) := by
    rw [← hall]
    exact List.mem_append_left _ hb
  rcases List.mem_append.mp hin with hin | hin
  · obtain ⟨-, -, opt, hmem, htakes, -⟩ := h₁ b hin
    exact absurd (htakes.1.symm.trans hname) (interface_ne_ipv6 opt hmem)
  · rcases List.mem_append.mp hin with hin | hin
    · obtain ⟨-, -, opt, hmem, htakes, -⟩ := h₂ b hin
      exact absurd htakes (p.not_command b (List.mem_append_left _ hb) opt hmem)
    · exact hflag ⟨b, hin, hname⟩

/-- At `filename=` all the tokens before it have been scanned, and fit. -/
theorem fits_of_scan {c c' t : CStr} {f f' n : Nat} (hall : ScanAll c (c' ++ t) 0 f)
    (htftp : ScanTftp c' t f f' n) (htext : p.text = c ++ (c' ++ t))
    (hbefore : c ++ (c' ++ t.take n) = p.before) : p.Fits := by
  obtain ⟨mid, flag, hpass, hhalt, -⟩ := htftp
  have hclosed : Closed (c ++ c') := hall.closed.append hpass.closed
  rcases token_stop hhalt with rfl | ⟨rfl, -, hshort, s, hs⟩
  · rw [List.take_zero, List.append_nil] at hbefore
    exact absurd (hbefore ▸ p.mark_before) hclosed.not_mark
  · obtain ⟨r, rfl⟩ := mark_of_takeWhile hs
    rw [show (filenameMark ++ r).take 9 = filenameMark from @List.take_left _ filenameMark r,
      ← List.append_assoc] at hbefore
    have hjoin := (List.append_inj' hbefore rfl).1
    have hr : r = withAfter p.name p.rest := by
      have hbehind := htext
      rw [text, ← hbefore] at hbehind
      simp only [List.append_assoc, List.append_cancel_left_eq] at hbehind
      exact hbehind.symm
    rw [hr, takeWhile_mark p.name_text] at hshort
    obtain ⟨bs₁, bs₂, bs₃, rfl, h₁, h₂, h₃, -⟩ := scanAll_tokens hall
    obtain ⟨bs₄, rfl, h₄⟩ := (passes_iff (by decide)).mp ⟨mid, hpass⟩
    have htexts : ∀ b ∈ bs₁ ++ (bs₂ ++ bs₃) ++ bs₄, ',' ∉ b := by
      intro b hb
      simp only [List.mem_append] at hb
      rcases hb with (hb | hb | hb) | hb
      · exact (h₁ b hb).1
      · exact (h₂ b hb).1
      · exact (h₃ b hb).1
      · exact (h₄ b hb).1
    have htokens := joinTokens_injective p.tokens_text htexts
      (hjoin.symm.trans (joinTokens_append _ _).symm)
    obtain ⟨hordered, hlen⟩ := ordered_of_known
      (by rw [htokens, List.append_assoc, List.append_assoc]) h₁ h₂ h₃ h₄
    exact ⟨hordered, hlen, hshort⟩

theorem fits_of_decomposed {fw : Firmware} {device : CStr} (hcolon : ':' ∉ device)
    (htype : fw.devtype device = .net) (h : p.Decomposed fw device) : p.Fits := by
  obtain ⟨d, hrun, hs1, -⟩ := h
  have hs1 : d.s1 = some p.before := hs1
  have hparse := hrun _ (Nat.lt_succ_self _)
  rw [parseDevicePath_net hcolon htype] at hparse
  obtain ⟨r, hparse, hr⟩ := Option.map_eq_some_iff.mp hparse
  cases hr
  simp only [parseNetDevice, Option.bind_eq_bind] at hparse
  obtain ⟨⟨f, offset⟩, hscan, hparse⟩ := Option.bind_eq_some_iff.mp hparse
  obtain ⟨c, t, htext, hall, rfl⟩ := scanOptions_scan hscan
  have hzero : ScanAll c t 0 f := hall
  rw [htext] at hparse
  simp only at hparse
  split at hparse
  · -- an iSCSI path has nothing before its file name
    cases hparse
    simp only [getIscsiOptions] at hs1
    split at hs1
    · cases hs1
    · cases hs1
  · rw [getTftpOptions] at hparse
    split at hparse
    · have hopts := hparse
      simp only [getTftpIpv6Options, Option.bind_eq_bind] at hopts
      obtain ⟨⟨f', len⟩, hopts, -⟩ := Option.bind_eq_some_iff.mp hopts
      obtain ⟨c', t', n, hsplit, htftp, rfl⟩ := parseOptions_scan hopts
      rw [List.drop_left] at hsplit
      subst hsplit
      rw [getTftpIpv6Options_eq hopts] at hparse
      split at hparse
      · cases hparse
        cases hs1
      · cases hparse
        exact fits_of_scan hzero htftp htext (Option.some.inj hs1)
    · rename_i hipv4
      cases hparse
      have hcases := getTftpIpv4Options_before fw _ hs1 p.mark_before
      rcases hcases with ⟨-, hbefore⟩ | hcomma | ⟨server, q, -, hserver, hbefore⟩
      · exact absurd (hbefore ▸ p.mark_before) hzero.closed.not_mark
      · exact absurd p.comma_in_before hcomma
      · -- the server would be `filename=`, and `ipv6` before it
        obtain ⟨hjoin, -⟩ := closed_append_injective (joinTokens_closed _) hzero.closed (by decide)
          hserver hbefore
        rw [← hjoin] at hzero
        exact absurd (ipv6_of_scanAll hzero) hipv4

/-- The options of `enet:duplex=full,ipv6,ciaddr=2001:db8::2,filename=yaboot,0`. -/
def sample : Ipv6Options where
  options := ["duplex=full".toList, "ipv6".toList]
  bootstrap := ["ciaddr=2001:db8::2".toList]
  name := "yaboot".toList
  rest := some ['0']
  options_known := by decide
  ipv6 := by decide
  bootstrap_known := by decide
  name_text := by decide

/-- A file name of 55 characters: with `filename=` the token has 64. -/
def longName : Ipv6Options where
  options := ["ipv6".toList]
  bootstrap := []
  name := List.replicate 55 'y'
  rest := none
  options_known := by decide
  ipv6 := by decide
  bootstrap_known := by decide
  name_text := by decide

end Ipv6Options

end LiloBoot.DevPath
