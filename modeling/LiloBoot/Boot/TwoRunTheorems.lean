/-
LiloBoot.Boot.TwoRunTheorems — the password demand of two calls for the same image.

`check_password` is called for a label without `restricted`, for a label whose
image is a command, and for a restricted label with arguments. `get_params`
starts with the empty string as arguments, and `word_split` leaves a null
pointer where a line has none: a restricted image without arguments is guarded
by the password just where no line has been read.
-/
import LiloBoot.Boot.PasswordTheorems

namespace LiloBoot.Boot

open LiloBoot.Cfg

/-! ## §1 The demand -/

/-- Control reaches `check_password`. Whether it does is not a matter of the buffer an earlier call
has left, so the run is one without a buffer: there the first check calls `malloc`. -/
def AsksPassword (inp : PromptInput) : Prop :=
  0 < (getParams { inp with passwdbuff := none }).1.mallocs

/-- No line is read: the wait for a key ran out or ended with Return, or with a label that needs
no Return. -/
def NoLine (inp : PromptInput) : Prop :=
  inp.liloOnceCmdline = []
    ∧ (charIsNewline (firstKey inp).1 = true
      ∨ 32 ≤ (firstKey inp).1 ∧ inp.useconf = true
        ∧ cfgGetFlag inp.cfg (some (firstKey inp).2) "single-key".toList = some true)

/-- The section that `cfg_get_strg` reads for a name; none also if it runs into a section without
a name. -/
def sectionOf (name : CStr) : List (List Config) → Option (List Config)
  | [] => none
  | p :: rest =>
    match imageLabel p with
    | none => none
    | some label =>
      if label = name || cfgGetStrgI p aliasName = some name then some p else sectionOf name rest

/-- The image of a section. -/
def sectionImage (st : CfgState) (p : List Config) : CStr :=
  ((cfgGetStrgI p imageName).or (cfgGetStrgI st.options imageName)).getD []

/-- A section is restricted by itself or by the global flag. -/
def sectionRestricted (st : CfgState) (p : List Config) : Bool :=
  (cfgGetStrgI p "restricted".toList).isSome
    || (cfgGetStrgI st.options "restricted".toList).isSome

/-- The call ends up with the image of a section and without the text of an argument. -/
structure Boots (inp : PromptInput) (p : List Config) : Prop where
  cmdbuff : inp.cmdbuff = true
  useconf : inp.useconf = true
  image : sectionImage inp.cfg p ≠ []
  selects : ∃ name args keys, request inp = some (some name, args, keys) ∧ args.getD [] = []
    ∧ sectionOf name inp.cfg.images = some p

/-! ## §2 The checks that are reached -/

/-- The check behind the look-up of the label is reached. -/
def reachesLast (t : Target) : Bool :=
  match t.imagename with
  | none => false
  | some name => name ≠ helpName && (t.label.isNone || (commandOf name).isSome)

section Checks

variable {inp : PromptInput} {password : CStr} {s : Session} {t : Target}

@[simp] theorem passwordLoop_mallocs (attempts : Nat) : ∀ (buf : CStr) (s : Session),
    (passwordLoop inp password attempts buf s).1.mallocs = s.mallocs := by
  induction attempts with
  | zero =>
    intro buf s
    rfl
  | succ attempts ih =>
    intro buf s
    rw [passwordLoop]
    cases bufferEdit none s.keys buf with
    | none => rfl
    | some r =>
      simp only
      split
      · rfl
      · exact ih _ _

theorem checkPassword_mallocs (s : Session) :
    (checkPassword inp password s).1.mallocs = (passwdinit inp s).mallocs := by
  rw [checkPassword]
  cases (passwdinit inp s).passwdbuff with
  | none => rfl
  | some buf => exact passwordLoop_mallocs 3 buf _

theorem passwdinit_mallocs (s : Session) :
    (passwdinit inp s).mallocs = s.mallocs + s.passwdbuff.isNone.toNat := by
  rw [passwdinit]
  cases s.passwdbuff with
  | none => rfl
  | some buf => rfl

/-- A check calls `malloc` if and only if there is no buffer. -/
theorem checkIf_mallocs (hpw : inp.password.isSome = true) (asks : Bool) (s : Session) :
    (checkIf asks inp s).1.mallocs = s.mallocs + (asks && s.passwdbuff.isNone).toNat := by
  obtain ⟨password, hpassword⟩ := Option.isSome_iff_exists.mp hpw
  cases asks with
  | false => rfl
  | true =>
    simp only [checkIf, hpassword, Bool.true_and]
    rw [checkPassword_mallocs, passwdinit_mallocs]

theorem runTarget_mallocs (hpw : inp.password.isSome = true) (t : Target) (s : Session) :
    (runTarget inp t s).1.mallocs = s.mallocs + (reachesLast t && s.passwdbuff.isNone).toNat := by
  rw [runTarget, reachesLast]
  cases t.imagename with
  | none => rfl
  | some name =>
    simp only
    by_cases hhelp : name = helpName
    · simp [hhelp]
    · rw [if_neg hhelp]
      cases hcommand : commandOf name with
      | some r =>
        have hcheck := checkIf_mallocs hpw true s
        simp only [hhelp, ne_eq, not_false_eq_true, decide_true, Option.isSome_some, Bool.or_true,
          Bool.true_and] at hcheck ⊢
        rw [← hcheck]
        cases checkIf true inp s with
        | mk s' ret => cases ret <;> rfl
      | none =>
        have hcheck := checkIf_mallocs hpw t.label.isNone s
        simp only [hhelp, ne_eq, not_false_eq_true, decide_true, Option.isSome_none, Bool.or_false,
          Bool.true_and] at hcheck ⊢
        rw [← hcheck]
        cases checkIf t.label.isNone inp s with
        | mk s' ret => cases ret <;> rfl

/-- A call asks for the password where one of its two checks does. -/
theorem asksPassword_iff {imagename args : Option CStr} {keys : List Int}
    (hpw : inp.password.isSome = true) (hcmdbuff : inp.cmdbuff = true)
    (hreq : request inp = some (imagename, args, keys)) (htarget : findTarget inp imagename = some t) :
    AsksPassword inp ↔ asksForLabel t args = true ∨ reachesLast t = true := by
  have hreq' : request { inp with passwdbuff := none } = some (imagename, args, keys) := hreq
  have htarget' : findTarget { inp with passwdbuff := none } imagename = some t := htarget
  have hfirst := @checkIf_mallocs { inp with passwdbuff := none } hpw (asksForLabel t args)
    ⟨keys, none, 0, []⟩
  rw [AsksPassword, getParams, if_neg (by simp [hcmdbuff])]
  simp only [hreq', htarget']
  cases hasks : asksForLabel t args with
  | false =>
    have hlast := @runTarget_mallocs { inp with passwdbuff := none } hpw t ⟨keys, none, 0, []⟩
    simp only [checkIf, Bool.false_eq_true, false_or]
    rw [hlast]
    cases reachesLast t with
    | false => simp
    | true => simp
  | true =>
    rw [hasks] at hfirst
    refine iff_of_true ?_ (.inl rfl)
    cases hrun : checkIf true { inp with passwdbuff := none } ⟨keys, none, 0, []⟩ with
    | mk s' ret =>
      rw [hrun] at hfirst
      have hs' : s'.mallocs = 1 := hfirst
      cases ret with
      | false => exact hs' ▸ Nat.one_pos
      | true =>
        simp only
        rw [@runTarget_mallocs { inp with passwdbuff := none } hpw t s', hs']
        omega

end Checks

/-! ## §3 The arguments -/

section Arguments

variable {inp : PromptInput} {imagename args : Option CStr} {keys : List Int}

/-- Arguments of a line are not empty. -/
theorem wordSplit_args_ne_nil (line : CStr) : (wordSplit line).2 ≠ some [] := by
  rw [wordSplit]
  split
  · simp
  · split
    · simp
    · rename_i hne
      simpa using hne

/-- The arguments are the empty string if no line was read; else they and the name are the words
of a line. -/
theorem readLine_args (h : readLine inp = some (imagename, args, keys)) :
    NoLine inp ∧ args = some [] ∨ ¬ NoLine inp ∧ ∃ line, wordSplit line = (imagename, args) := by
  rw [readLine] at h
  split at h
  · rename_i honce
    cases h
    exact .inr ⟨fun hno => honce hno.1, _, rfl⟩
  · rename_i honce
    have honce : inp.liloOnceCmdline = [] := not_not.mp honce
    simp only at h
    split at h
    · rename_i hnewline
      obtain ⟨_, -, heq⟩ := Option.map_eq_some_iff.mp h
      cases heq
      exact .inl ⟨⟨honce, .inl hnewline⟩, rfl⟩
    · rename_i hnewline
      split at h
      · rename_i hchar
        split at h
        · cases h
        · rename_i hflag
          cases h
          exact .inl ⟨⟨honce, .inr ⟨hchar.1, hchar.2, hflag⟩⟩, rfl⟩
        · rename_i hflag
          obtain ⟨r, -, heq⟩ := Option.map_eq_some_iff.mp h
          cases heq
          refine .inr ⟨?_, _, rfl⟩
          rintro ⟨-, hno | ⟨-, -, hno⟩⟩
          · exact hnewline hno
          · rw [hflag] at hno
            cases hno
      · rename_i hchar
        obtain ⟨r, -, heq⟩ := Option.map_eq_some_iff.mp h
        cases heq
        refine .inr ⟨?_, _, rfl⟩
        rintro ⟨-, hno | ⟨hno, huse, -⟩⟩
        · exact hnewline hno
        · exact hchar ⟨hno, huse⟩

/-- The request has the arguments of the line. -/
theorem request_args (h : request inp = some (imagename, args, keys)) :
    ∃ name, readLine inp = some (name, args, keys) := by
  rw [request] at h
  split at h
  · cases h
  · rename_i name args' keys' hline
    split at h
    · obtain ⟨_, -, heq⟩ := Option.map_eq_some_iff.mp h
      cases heq
      exact ⟨name, hline⟩
    · cases h
      exact ⟨_, hline⟩

/-- Without text the arguments are there exactly if no line was read. -/
theorem request_noArgs (h : request inp = some (imagename, args, keys))
    (hempty : args.getD [] = []) : args.isSome = true ↔ NoLine inp := by
  obtain ⟨name, hline⟩ := request_args h
  rcases readLine_args hline with ⟨hno, rfl⟩ | ⟨hread, line, hwords⟩
  · exact iff_of_true rfl hno
  · refine iff_of_false (fun hsome => ?_) hread
    obtain ⟨a, rfl⟩ := Option.isSome_iff_exists.mp hsome
    rw [Option.getD_some] at hempty
    apply wordSplit_args_ne_nil line
    rw [hwords, hempty]

end Arguments

/-! ## §4 The section -/

section Sections

variable {inp : PromptInput} {p : List Config} {name : CStr}

/-- All options are read from the one section. -/
theorem cfgGetStrgImages_sectionOf (options : List Config) (item : CStr) :
    ∀ {images : List (List Config)}, sectionOf name images = some p →
      cfgGetStrgImages options name item images
        = some ((cfgGetStrgI p item).or (cfgGetStrgI options item))
  | [], h => by cases h
  | q :: rest, h => by
    rw [sectionOf] at h
    rw [cfgGetStrgImages]
    cases hlabel : imageLabel q with
    | none =>
      rw [hlabel] at h
      cases h
    | some label =>
      simp only [hlabel] at h ⊢
      split
      · rename_i hname
        rw [if_pos hname] at h
        cases h
        rfl
      · rename_i hname
        rw [if_neg hname] at h
        exact cfgGetStrgImages_sectionOf options item h

theorem cfgGetStrg_section (h : sectionOf name inp.cfg.images = some p) (item : CStr) :
    cfgGetStrg inp.cfg (some name) item
      = some ((cfgGetStrgI p item).or (cfgGetStrgI inp.cfg.options item)) :=
  cfgGetStrgImages_sectionOf inp.cfg.options item h

/-- The look-up of a section with an image. -/
theorem findTarget_section (huse : inp.useconf = true)
    (h : sectionOf name inp.cfg.images = some p) (himage : sectionImage inp.cfg p ≠ []) :
    findTarget inp (some name)
      = some ⟨some name, some (sectionImage inp.cfg p), sectionRestricted inp.cfg p⟩ := by
  have hstrg : cfgGetStrg inp.cfg (some name) imageName = some (some (sectionImage inp.cfg p)) := by
    rw [cfgGetStrg_section h]
    cases hvalue : (cfgGetStrgI p imageName).or (cfgGetStrgI inp.cfg.options imageName) with
    | none => exact absurd (by rw [sectionImage, hvalue]; rfl) himage
    | some image => rw [sectionImage, hvalue, Option.getD_some]
  have hflag : cfgGetFlag inp.cfg (some name) "restricted".toList
      = some (sectionRestricted inp.cfg p) := by
    rw [cfgGetFlag, cfgGetStrg_section h, Option.map_some, Option.isSome_or, sectionRestricted]
  have hglobal : cfgGetFlag inp.cfg none "restricted".toList
      = some (cfgGetStrgI inp.cfg.options "restricted".toList).isSome := rfl
  have hboth : ((cfgGetStrgI inp.cfg.options "restricted".toList).isSome
      || sectionRestricted inp.cfg p) = sectionRestricted inp.cfg p := by
    rw [sectionRestricted, Bool.or_comm, Bool.or_assoc, Bool.or_self]
  rw [findTarget, if_pos huse, hglobal, hstrg]
  simp only [Option.getD_some]
  rw [if_pos himage, hflag, Option.map_some, hboth]

/-- **One call.** The password is asked for a section that is not restricted, for a command, and
where no line was read. -/
theorem Boots.asks_iff (h : Boots inp p) (hpw : inp.password.isSome = true) :
    AsksPassword inp ↔ sectionRestricted inp.cfg p = false
      ∨ (commandOf (sectionImage inp.cfg p)).isSome = true ∨ NoLine inp := by
  obtain ⟨name, args, keys, hreq, hargs, hsection⟩ := h.selects
  rw [asksPassword_iff hpw h.cmdbuff hreq (findTarget_section h.useconf hsection h.image),
    ← request_noArgs hreq hargs]
  have hlast : reachesLast ⟨some name, some (sectionImage inp.cfg p), sectionRestricted inp.cfg p⟩
      = (commandOf (sectionImage inp.cfg p)).isSome := by
    by_cases hhelp : sectionImage inp.cfg p = helpName
    · rw [hhelp]
      rfl
    · simp [reachesLast, hhelp]
  rw [hlast, asksForLabel]
  cases sectionRestricted inp.cfg p with
  | false => simp
  | true =>
    simp only [Option.isSome_some, Bool.and_true, Bool.not_true, Bool.or_false, Bool.true_and,
      reduceCtorEq, false_or]
    exact or_comm

end Sections

/-! ## §5 Two calls -/

/-- **Two calls for the same section** and without arguments make the same demand, if and only if
the section is not restricted, or its image is a command, or a line was read in both or in none. -/
theorem sameDemand_iff (inp inp' : PromptInput) (p : List Config) (hcfg : inp'.cfg = inp.cfg)
    (hpassword : inp'.password = inp.password) (hpw : inp.password.isSome = true)
    (h : Boots inp p) (h' : Boots inp' p) :
    (AsksPassword inp ↔ AsksPassword inp') ↔
      sectionRestricted inp.cfg p = false
        ∨ (commandOf (sectionImage inp.cfg p)).isSome = true ∨ (NoLine inp ↔ NoLine inp') := by
  rw [h.asks_iff hpw, h'.asks_iff (hpassword ▸ hpw), hcfg]
  by_cases hrestricted : sectionRestricted inp.cfg p = false
  · simp only [hrestricted, true_or]
  · by_cases hcommand : (commandOf (sectionImage inp.cfg p)).isSome = true
    · simp only [hcommand, true_or, or_true]
    · rw [or_iff_right hrestricted, or_iff_right hcommand, or_iff_right hrestricted,
        or_iff_right hcommand, or_iff_right hrestricted, or_iff_right hcommand]

/-! ## §6 A restricted image and a timeout -/

/-- `timeout=50`, and the label `linux` of a restricted image. -/
def timedCfg : CfgState :=
  cfgItems (fun _ => true) (cfgStart 64)
    [("timeout".toList, some "50".toList), ("password".toList, some "secret".toList),
     (imageName, some "/vmlinux".toList), (labelName, some "linux".toList),
     ("restricted".toList, none)]

/-- The section of `linux`. -/
def timedSection : List Config := timedCfg.images.getD 0 []

/-- A call with this first key, 0 when the time runs out, and these keys behind it. -/
def timedPrompt (pressed : Int) (keys : List Int) : PromptInput :=
  { securedPrompt true keys with cfg := timedCfg, pressed := pressed }

/-- `linux` and Return, behind the first key. -/
def linuxKeys : List Int := [105, 110, 117, 120, 10]

theorem timedPrompt_boots : Boots (timedPrompt 0 []) timedSection where
  cmdbuff := rfl
  useconf := rfl
  image := by decide +kernel
  selects := ⟨"linux".toList, some [], [], by decide +kernel⟩

theorem typedPrompt_boots : Boots (timedPrompt 108 linuxKeys) timedSection where
  cmdbuff := rfl
  useconf := rfl
  image := by decide +kernel
  selects := ⟨"linux".toList, none, [], by decide +kernel⟩

/-- The same label is guarded when the time runs out, and free when its name is typed. -/
theorem typedLabel_unguarded :
    timedSection ∈ timedCfg.images
      ∧ Boots (timedPrompt 0 []) timedSection ∧ Boots (timedPrompt 108 linuxKeys) timedSection
      ∧ AsksPassword (timedPrompt 0 []) ∧ ¬ AsksPassword (timedPrompt 108 linuxKeys) := by
  refine ⟨by decide +kernel, timedPrompt_boots, typedPrompt_boots, ?_, ?_⟩
  · rw [AsksPassword]
    decide +kernel
  · rw [AsksPassword]
    decide +kernel

theorem timedPrompt_sameDemand :
    (AsksPassword (timedPrompt 0 []) ↔ AsksPassword (timedPrompt 108 linuxKeys)) ↔
      sectionRestricted timedCfg timedSection = false
        ∨ (commandOf (sectionImage timedCfg timedSection)).isSome = true
        ∨ (NoLine (timedPrompt 0 []) ↔ NoLine (timedPrompt 108 linuxKeys)) :=
  sameDemand_iff (timedPrompt 0 []) (timedPrompt 108 linuxKeys) timedSection rfl rfl rfl
    timedPrompt_boots typedPrompt_boots

end LiloBoot.Boot
