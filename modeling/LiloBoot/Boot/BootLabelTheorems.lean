/-
LiloBoot.Boot.BootLabelTheorems — where the strings of `get_params` are missing,
and which labels come back from the NVRAM.

`word_split` leaves a null pointer for a word that is not there, and the calls
for the NVRAM come before any test. The label is name and arguments with a space
between them; the way back splits at the first space behind the first word,
from a buffer of 512 bytes.
-/
import LiloBoot.Boot.BootLabel
import LiloBoot.Boot.TwoRunTheorems

namespace LiloBoot.Boot

open LiloBoot.Cfg

/-! ## §1 The conditions -/

/-- A line with two words, or a blank one for which the look-up of the default image runs through a
null pointer of the configuration. -/
def LineOk (inp : PromptInput) (line : CStr) : Prop :=
  (wordSplit line).2.isSome = true
    ∨ inp.useconf = true ∧ (wordSplit line).1 = none ∧ cfgGetDefault inp.cfg = none

/-- Name and arguments are given: in two words of the line, where one is read, by the default image
if Return is the first key or the time runs out, or by a label that needs no Return. -/
structure WordsGiven (inp : PromptInput) : Prop where
  once : inp.liloOnceCmdline ≠ [] → LineOk inp inp.liloOnceCmdline
  default : inp.liloOnceCmdline = [] → charIsNewline (firstKey inp).1 = true →
    cfgGetDefault inp.cfg ≠ some none
  prompt : inp.liloOnceCmdline = [] → charIsNewline (firstKey inp).1 = false →
    ¬ (32 ≤ (firstKey inp).1 ∧ inp.useconf = true
      ∧ cfgGetFlag inp.cfg (some (firstKey inp).2) "single-key".toList ≠ some false) →
    ∀ line keys, bufferEdit (some inp.tab) inp.keys (firstKey inp).2 = some (line, keys) →
      LineOk inp line

/-- The call selects this name and this text of arguments. -/
def Selects (inp : PromptInput) (name text : CStr) : Prop :=
  ∃ args keys, request inp = some (some name, args, keys) ∧ args.getD [] = text

/-- The label is selected again, whatever follows the buffer and whatever else the next call is
given with the configuration. -/
def LabelReturns (inp : PromptInput) (zero name : CStr) (args : Option CStr) : Prop :=
  ∀ after inp', inp'.cfg = inp.cfg → inp'.useconf = inp.useconf →
    inp'.liloOnceCmdline = reloadedLine zero name args after → Selects inp' name (args.getD [])

/-! ## §2 Words -/

section Words

variable {line name text : CStr}

/-- The number of characters that are not spaces. -/
def letters (s : CStr) : Nat := s.countP (· ≠ ' ')

theorem letters_append (s t : CStr) : letters (s ++ t) = letters s + letters t :=
  List.countP_append

theorem letters_dropWhile (s : CStr) : letters (s.dropWhile (· = ' ')) = letters s := by
  induction s with
  | nil => rfl
  | cons c s ih =>
    by_cases hc : c = ' '
    · rw [List.dropWhile_cons_of_pos (by simpa using hc), ih]
      simp [letters, hc]
    · rw [List.dropWhile_cons_of_neg (by simpa using hc)]

theorem letters_eq_zero {s : CStr} : letters s = 0 ↔ ∀ c ∈ s, c = ' ' := by
  rw [letters, List.countP_eq_zero]
  simp

theorem head_dropWhile (s : CStr) : (s.dropWhile (· = ' ')).head? ≠ some ' ' := by
  intro h
  have hhead := List.head?_dropWhile_not (· = ' ') s
  rw [h] at hhead
  simp at hhead

/-- `word_split` of a blank line, and of one with a word: the word has no space in it, the rest
starts with a letter, and no letter is lost. -/
theorem wordSplit_cases (line : CStr) :
    (∀ c ∈ line, c = ' ') ∧ wordSplit line = (none, none)
      ∨ ∃ name text, name ≠ [] ∧ ' ' ∉ name ∧ text.head? ≠ some ' '
        ∧ wordSplit line = (some name, if text = [] then none else some text)
        ∧ letters name + letters text = letters line := by
  have hline := letters_dropWhile line
  have hhead := head_dropWhile line
  rw [wordSplit]
  cases hp : line.dropWhile (· = ' ') with
  | nil =>
    rw [hp] at hline
    exact .inl ⟨letters_eq_zero.mp hline.symm, rfl⟩
  | cons c p =>
    rw [hp] at hline hhead
    refine .inr ⟨(c :: p).takeWhile (· ≠ ' '),
      ((c :: p).dropWhile (· ≠ ' ')).dropWhile (· = ' '), ?_, ?_, head_dropWhile _, ?_, ?_⟩
    · have hc : c ≠ ' ' := by simpa using hhead
      rw [List.takeWhile_cons_of_pos (by simpa using hc)]
      exact List.cons_ne_nil _ _
    · intro hin
      have hne := List.mem_takeWhile_imp hin
      simp at hne
    · simp only
      split
      · rename_i hempty
        rw [hempty, if_pos rfl]
      · rename_i hne
        rw [if_neg hne]
    · rw [letters_dropWhile, ← letters_append, List.takeWhile_append_dropWhile, hline]

/-- Arguments come with a first word. -/
theorem wordSplit_isSome (h : (wordSplit line).2.isSome = true) :
    ∃ name args, wordSplit line = (some name, some args) ∧ name ≠ [] := by
  rcases wordSplit_cases line with ⟨-, heq⟩ | ⟨name, text, hname, -, -, heq, -⟩
  · rw [heq] at h
    cases h
  · rw [heq] at h ⊢
    split at h
    · cases h
    · rename_i hne
      exact ⟨name, text, by rw [if_neg hne], hname⟩

theorem dropWhile_append_of_all {p : Char → Bool} {s t : CStr} (h : ∀ c ∈ s, p c = true) :
    (s ++ t).dropWhile p = t.dropWhile p := by
  rw [List.dropWhile_append, List.dropWhile_eq_nil_iff.mpr h]
  rfl

/-- A word, a space and arguments are split where they were joined. -/
theorem wordSplit_join (hname : name ≠ []) (hspace : ' ' ∉ name) (htext : text.head? ≠ some ' ') :
    wordSplit (name ++ ' ' :: text) = (some name, if text = [] then none else some text) := by
  have hne : ∀ c ∈ name, decide (c ≠ ' ') = true := by
    intro c hc
    exact decide_eq_true fun h => hspace (h ▸ hc)
  have hstart : (name ++ ' ' :: text).dropWhile (· = ' ') = name ++ ' ' :: text := by
    cases name with
    | nil => exact absurd rfl hname
    | cons c name =>
      have hc : c ≠ ' ' := fun h => hspace (h ▸ List.mem_cons_self)
      rw [List.cons_append, List.dropWhile_cons_of_neg (by simpa using hc)]
  have hrest : (name ++ ' ' :: text).dropWhile (· ≠ ' ') = ' ' :: text := by
    rw [dropWhile_append_of_all hne, List.dropWhile_cons_of_neg (by simp)]
  have hword : (name ++ ' ' :: text).takeWhile (· ≠ ' ') = name := by
    rw [List.takeWhile_append_of_pos hne, List.takeWhile_cons_of_neg (by simp), List.append_nil]
  have hargs : (' ' :: text).dropWhile (· = ' ') = text := by
    rw [List.dropWhile_cons_of_pos (by simp)]
    cases text with
    | nil => rfl
    | cons c text =>
      exact List.dropWhile_cons_of_neg (by simpa using htext)
  rw [wordSplit, hstart]
  split
  · rename_i hnil
    simp at hnil
  · rw [hrest, hargs, hword]
    split
    · rw [if_pos rfl]
    · rename_i hne
      rw [if_neg hne]

end Words

/-! ## §3 The request -/

section Requests

variable {inp : PromptInput} {imagename args : Option CStr} {keys : List Int} {line : CStr}

/-- The request of a line: its words, or the default image for a blank one. -/
theorem request_of_line
    (hread : readLine inp = some ((wordSplit line).1, (wordSplit line).2, keys)) :
    request inp = if inp.useconf = true ∧ (wordSplit line).1 = none
      then (cfgGetDefault inp.cfg).map fun imagename => (imagename, (wordSplit line).2, keys)
      else some ((wordSplit line).1, (wordSplit line).2, keys) := by
  have hempty : (wordSplit line).1.getD [] = [] ↔ (wordSplit line).1 = none := by
    rcases wordSplit_cases line with ⟨-, heq⟩ | ⟨name, text, hname, -, -, heq, -⟩
    · simp [heq]
    · simp [heq, hname]
  rw [request, hread]
  simp only [hempty]

theorem request_once (honce : inp.liloOnceCmdline ≠ []) :
    readLine inp = some ((wordSplit inp.liloOnceCmdline).1, (wordSplit inp.liloOnceCmdline).2,
      inp.keys) := by
  rw [readLine, if_pos honce]

theorem readLine_newline (honce : inp.liloOnceCmdline = [])
    (hnewline : charIsNewline (firstKey inp).1 = true) :
    readLine inp = (cfgGetDefault inp.cfg).map fun imagename => (imagename, some [], inp.keys) := by
  rw [readLine, if_neg (not_not.mpr honce)]
  simp only
  rw [if_pos hnewline]

/-- The words of the line that is edited. -/
def editedWords (inp : PromptInput) : Option (Option CStr × Option CStr × List Int) :=
  (bufferEdit (some inp.tab) inp.keys (firstKey inp).2).map fun r =>
    ((wordSplit r.1).1, (wordSplit r.1).2, r.2)

/-- A key that is a label, or the line that starts with it. -/
theorem readLine_key (honce : inp.liloOnceCmdline = [])
    (hnewline : charIsNewline (firstKey inp).1 = false) :
    readLine inp = if 32 ≤ (firstKey inp).1 ∧ inp.useconf = true
      then (cfgGetFlag inp.cfg (some (firstKey inp).2) "single-key".toList).bind fun flag =>
        if flag then some (some (firstKey inp).2, some [], inp.keys) else editedWords inp
      else editedWords inp := by
  rw [readLine, if_neg (not_not.mpr honce)]
  simp only
  rw [if_neg (by simp [hnewline])]
  cases cfgGetFlag inp.cfg (some (firstKey inp).2) "single-key".toList with
  | none => rfl
  | some flag => cases flag <;> rfl

/-- Neither of the two is a null pointer. -/
def Given (inp : PromptInput) : Prop :=
  ∀ imagename args keys, request inp = some (imagename, args, keys) →
    imagename.isSome = true ∧ args.isSome = true

theorem given_line_iff
    (hread : readLine inp = some ((wordSplit line).1, (wordSplit line).2, keys)) :
    Given inp ↔ LineOk inp line := by
  have hrequest := request_of_line hread
  constructor
  · intro h
    by_cases hargs : (wordSplit line).2.isSome = true
    · exact .inl hargs
    · split at hrequest
      · rename_i hdefault
        refine .inr ⟨hdefault.1, hdefault.2, ?_⟩
        cases hname : cfgGetDefault inp.cfg with
        | none => rfl
        | some name =>
          rw [hname] at hrequest
          exact absurd (h _ _ _ hrequest).2 hargs
      · exact absurd (h _ _ _ hrequest).2 hargs
  · rintro (hargs | ⟨huse, hname, hdefault⟩) name' args' keys' h'
    · obtain ⟨name, args, heq, -⟩ := wordSplit_isSome hargs
      rw [hrequest, heq, if_neg (by simp)] at h'
      cases h'
      exact ⟨rfl, rfl⟩
    · rw [hrequest, if_pos ⟨huse, hname⟩, hdefault] at h'
      cases h'

/-- A name without a line is given, and so is the default image that stands for an empty one. -/
theorem given_of_name {name : CStr} (hread : readLine inp = some (some name, some [], keys))
    (hdefault : cfgGetDefault inp.cfg ≠ some none) : Given inp := by
  intro imagename args keys' h
  rw [request, hread] at h
  simp only [Option.getD_some] at h
  split at h
  · cases hname : cfgGetDefault inp.cfg with
    | none =>
      rw [hname] at h
      cases h
    | some default =>
      rw [hname] at h
      cases h
      exact ⟨Option.isSome_iff_ne_none.mpr fun hnone => hdefault (hnone ▸ hname), rfl⟩
  · cases h
    exact ⟨rfl, rfl⟩

/-- Return as the first key gives the default image, if there is one. -/
theorem given_default_iff
    (hread : readLine inp = (cfgGetDefault inp.cfg).map fun imagename =>
      (imagename, some [], inp.keys)) :
    Given inp ↔ cfgGetDefault inp.cfg ≠ some none := by
  cases hname : cfgGetDefault inp.cfg with
  | none =>
    refine iff_of_true (fun _ _ _ h => ?_) (by simp)
    rw [request, hread, hname] at h
    cases h
  | some default =>
    rw [hname] at hread
    cases default with
    | none =>
      refine iff_of_false (fun h => ?_) (by simp)
      have hrequest : request inp = some (none, some [], inp.keys) := by
        rw [request, hread, Option.map_some]
        simp only [hname, Option.map_some, ite_self]
      cases (h _ _ _ hrequest).1
    | some name => exact iff_of_true (given_of_name hread (by rw [hname]; simp)) (by simp)

/-- A flag of a label can only be found if there is a label to boot. -/
theorem cfgGetDefault_of_flag {st : CfgState} {name item : CStr}
    (h : cfgGetFlag st (some name) item = some true) : cfgGetDefault st ≠ some none := by
  rw [cfgGetDefault]
  cases cfgGetStrgI st.options "default".toList with
  | some name => simp
  | none =>
    cases himages : st.images with
    | nil =>
      rw [cfgGetFlag, cfgGetStrg, himages] at h
      cases h
    | cons table rest =>
      cases hlabel : imageLabel table with
      | none => simp [hlabel]
      | some label => simp [hlabel]

/-- The line that is edited, if one is. -/
theorem given_edited_iff (hread : readLine inp = editedWords inp) :
    Given inp ↔ ∀ line keys,
      bufferEdit (some inp.tab) inp.keys (firstKey inp).2 = some (line, keys) → LineOk inp line := by
  rw [editedWords] at hread
  cases hedit : bufferEdit (some inp.tab) inp.keys (firstKey inp).2 with
  | none =>
    rw [hedit] at hread
    refine iff_of_true (fun _ _ _ h => ?_) (fun _ _ h => ?_)
    · rw [request, hread] at h
      cases h
    · cases h
  | some r =>
    obtain ⟨line, keys⟩ := r
    rw [hedit] at hread
    rw [given_line_iff hread]
    constructor
    · intro h line' keys' heq
      cases heq
      exact h
    · intro h
      exact h line keys rfl

/-- **The words of a request.** -/
theorem given_iff (inp : PromptInput) : Given inp ↔ WordsGiven inp := by
  by_cases honce : inp.liloOnceCmdline ≠ []
  · rw [given_line_iff (request_once honce)]
    exact ⟨fun h => ⟨fun _ => h, fun hno => absurd hno honce, fun hno => absurd hno honce⟩,
      fun h => h.once honce⟩
  have hno := not_not.mp honce
  cases hnewline : charIsNewline (firstKey inp).1 with
  | true =>
    rw [given_default_iff (readLine_newline hno hnewline)]
    refine ⟨fun h => ⟨fun h' => absurd h' honce, fun _ _ => h, fun _ h' => ?_⟩,
      fun h => h.default hno hnewline⟩
    rw [hnewline] at h'
    cases h'
  | false =>
    have hread := readLine_key hno hnewline
    -- whether the key is looked up as a label, and what its flag says
    by_cases hkey : 32 ≤ (firstKey inp).1 ∧ inp.useconf = true
      ∧ cfgGetFlag inp.cfg (some (firstKey inp).2) "single-key".toList ≠ some false
    · refine iff_of_true ?_ ⟨fun h' => absurd h' honce, fun _ h' => ?_, fun _ _ h' => absurd hkey h'⟩
      · rw [if_pos ⟨hkey.1, hkey.2.1⟩] at hread
        cases hflag : cfgGetFlag inp.cfg (some (firstKey inp).2) "single-key".toList with
        | none =>
          rw [hflag] at hread
          intro _ _ _ h
          rw [request, hread] at h
          cases h
        | some flag =>
          cases flag with
          | false => exact absurd hflag hkey.2.2
          | true =>
            rw [hflag] at hread
            exact given_of_name hread (cfgGetDefault_of_flag hflag)
      · rw [hnewline] at h'
        cases h'
    · have hedited : readLine inp = editedWords inp := by
        rw [hread]
        split
        · rename_i hlook
          have hflag : cfgGetFlag inp.cfg (some (firstKey inp).2) "single-key".toList
              = some false := by
            by_contra hne
            exact hkey ⟨hlook.1, hlook.2, hne⟩
          rw [hflag]
          rfl
        · rfl
      rw [given_edited_iff hedited]
      refine ⟨fun h => ⟨fun h' => absurd h' honce, fun _ h' => ?_, fun _ _ _ => h⟩,
        fun h => h.prompt hno hnewline hkey⟩
      rw [hnewline] at h'
      cases h'

end Requests

/-! ## §4 The calls -/

section Calls

variable {inp : PromptInput} {args : Option CStr} {t : Target}

/-- Behind the look-up of the label the name has been tested, and the arguments are those of the
line or a buffer. -/
theorem targetCalls_nonNull (hargs : args.isSome = true) (s : Session) :
    ∀ call ∈ targetCalls inp t args s, call.NonNull := by
  rw [targetCalls]
  cases t.imagename with
  | none => simp
  | some name =>
    have hname : (StringCall.strcmp (some name)).NonNull := rfl
    have hstrstr : (StringCall.strstr args).NonNull := hargs
    simp only
    split
    · simp [hname]
    · split
      · simp [hname]
      · split
        · simp [hname]
        · split
          · simp [hname, hstrstr]
          · simp [hname]

theorem labelArgs_isSome {args' : Option CStr} (hargs : args.isSome = true)
    (h : labelArgs inp t args = some args') : args'.isSome = true := by
  rw [labelArgs] at h
  split at h
  · cases h
    exact hargs
  · obtain ⟨v, -, rfl⟩ := Option.map_eq_some_iff.mp h
    rfl

/-- The first two calls decide. -/
theorem stringCalls_nonNull (hcmdbuff : inp.cmdbuff = true) (nvram : Bool) :
    (∀ call ∈ stringCalls inp nvram, call.NonNull) ↔ Given inp := by
  rw [stringCalls, if_neg (by simp [hcmdbuff])]
  cases hreq : request inp with
  | none =>
    refine iff_of_true (by simp) (fun _ _ _ h => ?_)
    rw [hreq] at h
    cases h
  | some r =>
    obtain ⟨imagename, args, keys⟩ := r
    simp only
    constructor
    · intro h imagename' args' keys' heq
      rw [hreq] at heq
      cases heq
      exact ⟨h (.strlen imagename) (by simp [nvramCalls]), h (.strlen args) (by simp [nvramCalls])⟩
    · intro h
      obtain ⟨hname, hargs⟩ := h _ _ _ hreq
      have hnvram : ∀ call ∈ nvramCalls nvram imagename args, call.NonNull := by
        cases nvram with
        | false => simp [nvramCalls, StringCall.NonNull, hname, hargs]
        | true => simp [nvramCalls, StringCall.NonNull, hname, hargs]
      intro call hcall
      rcases List.mem_append.mp hcall with hcall | hcall
      · exact hnvram call hcall
      · split at hcall
        · cases hcall
        · split at hcall
          · cases hcall
          · split at hcall
            · cases hcall
            · rename_i hlabel
              exact targetCalls_nonNull (labelArgs_isSome hargs hlabel) _ call hcall

/-- **`get_params` hands no null pointer** to a string function, if and only if it has no buffer
for the line or the words are given. -/
theorem stringCalls_nonNull_iff (inp : PromptInput) (nvram : Bool) :
    (∀ call ∈ stringCalls inp nvram, call.NonNull) ↔ (inp.cmdbuff = true → WordsGiven inp) := by
  cases hcmdbuff : inp.cmdbuff with
  | false =>
    rw [stringCalls, if_pos (by simp [hcmdbuff])]
    simp
  | true =>
    rw [stringCalls_nonNull hcmdbuff, given_iff]
    simp

/-- A label and Return: the length of the arguments is taken at a null pointer. -/
theorem typedLabel_nullArgs :
    request (securedPrompt true (108 :: linuxKeys)) = some (some "linux".toList, none, [])
      ∧ .strlen none ∈ stringCalls (securedPrompt true (108 :: linuxKeys)) true
      ∧ ¬ ∀ call ∈ stringCalls (securedPrompt true (108 :: linuxKeys)) true, call.NonNull := by
  have hin : StringCall.strlen none ∈ stringCalls (securedPrompt true (108 :: linuxKeys)) true := by
    decide +kernel
  refine ⟨by decide +kernel, hin, fun h => ?_⟩
  cases h _ hin

end Calls

/-! ## §5 The way back -/

section Return

variable {inp : PromptInput} {zero name text : CStr} {args : Option CStr} {keys : List Int}

/-- A name is a word of a line, or there is no text behind it. -/
theorem request_shape (h : request inp = some (some name, args, keys)) :
    name ≠ [] ∧ ' ' ∉ name ∧ (args.getD []).head? ≠ some ' ' ∨ args.getD [] = [] := by
  rw [request] at h
  split at h
  · cases h
  · rename_i imagename args' keys' hread
    have hargs : args' = args := by
      split at h
      · obtain ⟨_, -, heq⟩ := Option.map_eq_some_iff.mp h
        cases heq
        rfl
      · cases h
        rfl
    subst hargs
    rcases readLine_args hread with ⟨-, rfl⟩ | ⟨-, line, hwords⟩
    · exact .inr rfl
    · rcases wordSplit_cases line with ⟨-, heq⟩ | ⟨word, text, hword, hspace, hhead, heq, -⟩
      · rw [hwords] at heq
        cases heq
        exact .inr rfl
      · rw [hwords] at heq
        cases heq
        rw [Option.getD_some, if_neg (fun hno => hword hno.2)] at h
        cases h
        refine .inl ⟨hword, hspace, ?_⟩
        split
        · simp
        · exact hhead

/-- A line of `lilo once` that has a letter selects its two words. -/
theorem selects_once {line : CStr} (honce : inp.liloOnceCmdline = line)
    (hletter : letters line ≠ 0) (h : Selects inp name text) :
    name ≠ [] ∧ ' ' ∉ name ∧ letters name + letters text = letters line := by
  subst honce
  obtain ⟨args, keys, hreq, rfl⟩ := h
  have hne : inp.liloOnceCmdline ≠ [] := by
    intro hnil
    rw [hnil] at hletter
    exact hletter rfl
  rw [request_of_line (request_once hne)] at hreq
  rcases wordSplit_cases inp.liloOnceCmdline with ⟨hblank, -⟩ | ⟨word, rest, hword, hspace, -, heq,
    hletters⟩
  · exact absurd (letters_eq_zero.mpr hblank) hletter
  · rw [heq, if_neg (by simp)] at hreq
    cases hreq
    refine ⟨hword, hspace, ?_⟩
    rw [← hletters]
    split
    · rename_i hrest
      rw [hrest]
      rfl
    · rfl

/-- A blank line selects the default image. -/
theorem selects_blank_iff {line : CStr} (honce : inp.liloOnceCmdline = line) (hne : line ≠ [])
    (hblank : ∀ c ∈ line, c = ' ') :
    Selects inp name [] ↔ inp.useconf = true ∧ cfgGetDefault inp.cfg = some (some name) := by
  subst honce
  have hwords : wordSplit inp.liloOnceCmdline = (none, none) := by
    rcases wordSplit_cases inp.liloOnceCmdline with ⟨-, heq⟩ | ⟨word, rest, hword, hspace, -, -, hletters⟩
    · exact heq
    · rw [letters_eq_zero.mpr hblank] at hletters
      have hzero : letters word = 0 := by omega
      obtain ⟨c, hc⟩ := List.exists_mem_of_ne_nil word hword
      exact absurd (letters_eq_zero.mp hzero c hc ▸ hc) hspace
  have hrequest := request_of_line (request_once hne)
  rw [hwords] at hrequest
  rw [Selects, hrequest]
  by_cases huse : inp.useconf = true
  · rw [if_pos ⟨huse, rfl⟩]
    constructor
    · rintro ⟨args, keys, hreq, -⟩
      obtain ⟨_, hdefault, heq⟩ := Option.map_eq_some_iff.mp hreq
      cases heq
      exact ⟨huse, hdefault⟩
    · rintro ⟨-, hdefault⟩
      exact ⟨none, inp.keys, by rw [hdefault]; rfl, rfl⟩
  · rw [if_neg (fun h => huse h.1)]
    refine iff_of_false ?_ (fun h => huse h.1)
    rintro ⟨args, keys, hreq, -⟩
    cases hreq

/-- Two words of a line are selected. -/
theorem selects_words (honce : inp.liloOnceCmdline = name ++ ' ' :: text)
    (hname : name ≠ []) (hspace : ' ' ∉ name) (htext : text.head? ≠ some ' ') :
    Selects inp name text := by
  have hne : inp.liloOnceCmdline ≠ [] := by
    rw [honce]
    simp
  have hrequest := request_of_line (request_once hne)
  rw [honce, wordSplit_join hname hspace htext, if_neg (by simp)] at hrequest
  refine ⟨_, _, hrequest, ?_⟩
  split
  · rename_i hempty
    rw [hempty]
    rfl
  · rfl

/-- The label as it was stored, when the buffer holds it. -/
theorem reloadedLine_whole (h : (bootLabel zero name args).length
      < min (bootLabelSize zero name args) 512) (after : CStr) :
    reloadedLine zero name args after = bootLabel zero name args := by
  rw [reloadedLine, if_pos h]

/-- A label that is cut does not come back: what follows the buffer would have to be part of it. -/
theorem not_returns_of_cut (h : ¬ (bootLabel zero name args).length
      < min (bootLabelSize zero name args) 512) : ¬ LabelReturns inp zero name args := by
  intro hreturns
  have hcut : ∀ after, reloadedLine zero name args after
      = (bootLabel zero name args).take (min (bootLabelSize zero name args) 512) ++ after := by
    intro after
    rw [reloadedLine, if_neg h]
  have hletters : ∀ after, letters after ≠ 0 → letters name + letters (args.getD [])
      = letters ((bootLabel zero name args).take (min (bootLabelSize zero name args) 512))
        + letters after := by
    intro after hafter
    rw [← letters_append _ after, ← hcut]
    refine (selects_once rfl ?_ (hreturns after
      { inp with liloOnceCmdline := reloadedLine zero name args after } rfl rfl rfl)).2.2
    show letters (reloadedLine zero name args after) ≠ 0
    rw [hcut, letters_append]
    omega
  have hone := hletters ['x'] (by decide)
  have htwo := hletters ['x', 'x'] (by decide)
  have h1 : letters ['x'] = 1 := rfl
  have h2 : letters ['x', 'x'] = 2 := rfl
  omega

theorem letters_bootLabel (zero name : CStr) (args : Option CStr) :
    letters (bootLabel zero name args) = letters name + letters (labelText zero args) := by
  rw [bootLabel, letters_append]
  rfl

/-- A whole label comes back as a line of its own. -/
theorem returns_iff_of_whole (h : (bootLabel zero name args).length
      < min (bootLabelSize zero name args) 512) :
    LabelReturns inp zero name args ↔ ∀ inp', inp'.cfg = inp.cfg → inp'.useconf = inp.useconf →
      inp'.liloOnceCmdline = bootLabel zero name args → Selects inp' name (args.getD []) := by
  constructor
  · intro hreturns inp' hcfg huse honce
    exact hreturns [] inp' hcfg huse (by rw [honce, reloadedLine_whole h])
  · intro hall after inp' hcfg huse honce
    exact hall inp' hcfg huse (by rw [honce, reloadedLine_whole h])

/-- A blank name comes without text. -/
theorem request_blank (h : request inp = some (some name, args, keys))
    (hblank : ∀ c ∈ name, c = ' ') : args.getD [] = [] := by
  rcases request_shape h with ⟨hne, hspace, -⟩ | hempty
  · obtain ⟨c, hc⟩ := List.exists_mem_of_ne_nil name hne
    exact absurd (hblank c hc ▸ hc) hspace
  · exact hempty

/-- Arguments that are there, or that read as empty, are the text of the label. -/
theorem labelText_eq (h : args.isSome = true ∨ zero = []) :
    labelText zero args = args.getD [] ∧ args.getD zero = args.getD [] := by
  cases args with
  | none =>
    obtain rfl := h.resolve_left (by simp)
    exact ⟨rfl, rfl⟩
  | some a => exact ⟨rfl, rfl⟩

/-- **The label of the NVRAM** selects the same image and the same arguments again, if and only if
the arguments are there or address 0 reads as an empty string, name and arguments have at most 510
characters together, and the name is a single word, or a blank one that is the default image. -/
theorem labelReturns_iff (inp : PromptInput) (zero name : CStr) (args : Option CStr)
    (keys : List Int) (h : request inp = some (some name, args, keys)) :
    LabelReturns inp zero name args ↔
      (args.isSome = true ∨ zero = []) ∧ name.length + (args.getD []).length ≤ 510
        ∧ (name ≠ [] ∧ ' ' ∉ name
          ∨ (∀ c ∈ name, c = ' ') ∧ inp.useconf = true
            ∧ cfgGetDefault inp.cfg = some (some name)) := by
  have hshape := request_shape h
  have hlength : (bootLabel zero name args).length
      = name.length + 1 + (labelText zero args).length := by
    rw [bootLabel, List.length_append, List.length_cons]
    omega
  have hne : bootLabel zero name args ≠ [] := by
    rw [bootLabel]
    simp
  constructor
  · intro hreturns
    have hwhole : (bootLabel zero name args).length < min (bootLabelSize zero name args) 512 := by
      by_contra hcut
      exact not_returns_of_cut hcut hreturns
    obtain ⟨inp', hcfg, huse, honce, hself⟩ : ∃ inp' : PromptInput, inp'.cfg = inp.cfg
        ∧ inp'.useconf = inp.useconf ∧ inp'.liloOnceCmdline = bootLabel zero name args
        ∧ Selects inp' name (args.getD []) :=
      ⟨{ inp with liloOnceCmdline := bootLabel zero name args }, rfl, rfl, rfl,
        (returns_iff_of_whole hwhole).mp hreturns _ rfl rfl rfl⟩
    have hletters := letters_bootLabel zero name args
    have hargs : args.isSome = true ∨ zero = [] := by
      by_contra hno
      obtain ⟨hnone, hzero⟩ := not_or.mp hno
      obtain rfl := Option.not_isSome_iff_eq_none.mp hnone
      have hnull : letters (labelText zero none) = 6 := by
        rw [labelText, if_pos hzero]
        rfl
      obtain ⟨-, -, hsum⟩ := selects_once honce (by rw [hletters]; omega) hself
      rw [hletters, hnull] at hsum
      have hnil : letters [] = 0 := rfl
      rw [Option.getD_none] at hsum
      omega
    rw [hlength, (labelText_eq hargs).1] at hwhole
    refine ⟨hargs, by omega, ?_⟩
    by_cases hblank : ∀ c ∈ name, c = ' '
    · have hempty := request_blank h hblank
      have hall : ∀ c ∈ bootLabel zero name args, c = ' ' := by
        rw [← letters_eq_zero, hletters, letters_eq_zero.mpr hblank, (labelText_eq hargs).1, hempty]
        rfl
      rw [hempty, selects_blank_iff honce hne hall, hcfg, huse] at hself
      exact .inr ⟨hblank, hself⟩
    · have hsome : letters (bootLabel zero name args) ≠ 0 := by
        have hname := mt letters_eq_zero.mp hblank
        omega
      obtain ⟨hname, hspace, -⟩ := selects_once honce hsome hself
      exact .inl ⟨hname, hspace⟩
  · rintro ⟨hargs, hfits, hname⟩
    obtain ⟨htext, hzero⟩ := labelText_eq hargs
    have hwhole : (bootLabel zero name args).length < min (bootLabelSize zero name args) 512 := by
      rw [hlength, htext, bootLabelSize, hzero]
      omega
    rw [returns_iff_of_whole hwhole]
    intro inp' hcfg huse honce
    rcases hname with ⟨hname, hspace⟩ | ⟨hblank, hdefault⟩
    · rw [bootLabel, htext] at honce
      refine selects_words honce hname hspace ?_
      rcases hshape with ⟨-, -, hhead⟩ | hempty
      · exact hhead
      · simp [hempty]
    · have hempty := request_blank h hblank
      have hall : ∀ c ∈ bootLabel zero name args, c = ' ' := by
        rw [← letters_eq_zero, letters_bootLabel, letters_eq_zero.mpr hblank, htext, hempty]
        rfl
      rw [hempty, selects_blank_iff honce hne hall, hcfg, huse]
      exact hdefault

end Return

/-! ## §6 A label with a space -/

/-- `default="my linux"`, and an image with this label. -/
def spacedCfg : CfgState :=
  cfgItems (fun _ => true) (cfgStart 64)
    [("default".toList, some "my linux".toList), (imageName, some "/vmlinux".toList),
     (labelName, some "my linux".toList)]

/-- A call with this configuration and these keys. -/
def spacedPrompt (keys : List Int) : PromptInput :=
  { securedPrompt true keys with cfg := spacedCfg }

/-- An empty line boots `my linux`; after the reboot `my` is asked for, with `linux` as an
argument. -/
theorem spacedLabel_lost :
    request (spacedPrompt [10]) = some (some "my linux".toList, none, [])
      ∧ (findTarget (spacedPrompt [10]) (some "my linux".toList)).bind (·.imagename)
        = some "/vmlinux".toList
      ∧ reloadedLine [] "my linux".toList none [] = "my linux ".toList
      ∧ request { spacedPrompt [] with liloOnceCmdline := "my linux ".toList }
        = some (some "my".toList, some "linux ".toList, [])
      ∧ ¬ LabelReturns (spacedPrompt [10]) [] "my linux".toList none := by
  have hload : reloadedLine [] "my linux".toList none [] = "my linux ".toList := by
    decide +kernel
  have hrequest : request { spacedPrompt [] with liloOnceCmdline := "my linux ".toList }
      = some (some "my".toList, some "linux ".toList, []) := by
    decide +kernel
  refine ⟨by decide +kernel, by decide +kernel, hload, hrequest, fun h => ?_⟩
  obtain ⟨args, keys, hselects, -⟩ := h [] { spacedPrompt [] with
    liloOnceCmdline := "my linux ".toList } rfl rfl hload.symm
  rw [hrequest] at hselects
  cases hselects

theorem spacedPrompt_returns_iff :
    LabelReturns (spacedPrompt [10]) [] "my linux".toList none ↔
      ((none : Option CStr).isSome = true ∨ ([] : CStr) = []) 
        ∧ "my linux".toList.length + ((none : Option CStr).getD []).length ≤ 510
        ∧ ("my linux".toList ≠ [] ∧ ' ' ∉ "my linux".toList
          ∨ (∀ c ∈ "my linux".toList, c = ' ') ∧ (spacedPrompt [10]).useconf = true
            ∧ cfgGetDefault (spacedPrompt [10]).cfg = some (some "my linux".toList)) :=
  labelReturns_iff (spacedPrompt [10]) [] "my linux".toList none [] (by decide +kernel)

end LiloBoot.Boot
