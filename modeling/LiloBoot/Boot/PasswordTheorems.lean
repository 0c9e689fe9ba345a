/-
LiloBoot.Boot.PasswordTheorems — what the password protects.

A call is safe if it boots an image only after the password has been typed, or
an image that is restricted and was given no arguments, and if it executes a
command only after the password. `check_password` returns at once when there
is no buffer to type into; a call is safe just where that does not matter.
-/
import LiloBoot.Boot.Params

namespace LiloBoot.Boot

open LiloBoot.Cfg

/-! ## §1 Safety -/

/-- The configured password has been typed. -/
def TypedMatch (inp : PromptInput) (password : CStr) (events : List Event) : Prop :=
  ∃ text, .typed text ∈ events ∧ passwordMatches inp password text = true

/-- A command of the machine, as opposed to something typed. -/
def Event.IsCommand : Event → Prop
  | .interpret _ => True
  | .halt => True
  | .bye => True
  | .typed _ => False
  | .resetAll => False

/-- The request is for a label with an image, restricted by itself or everywhere, and without
arguments. -/
def RestrictedLabel (inp : PromptInput) : Prop :=
  ∃ label args keys image, request inp = some (some label, args, keys) ∧ args.getD [] = []
    ∧ inp.useconf = true ∧ cfgGetStrg inp.cfg (some label) imageName = some (some image)
    ∧ image ≠ []
    ∧ (cfgGetFlag inp.cfg none "restricted".toList = some true
      ∨ cfgGetFlag inp.cfg (some label) "restricted".toList = some true)

/-- Every command comes after the password. -/
def CommandsSafe (inp : PromptInput) (password : CStr) (events : List Event) : Prop :=
  ∀ pre event post, events = pre ++ event :: post → event.IsCommand → TypedMatch inp password pre

/-- What the password promises of a call. -/
def PasswordSafe (inp : PromptInput) (password : CStr) : Prop :=
  ((getParams inp).2 = some .ok →
      TypedMatch inp password (getParams inp).1.events ∨ RestrictedLabel inp)
    ∧ CommandsSafe inp password (getParams inp).1.events

/-! ## §2 The condition -/

/-- How often the password is asked for. -/
def checks (t : Target) (args : Option CStr) : Nat :=
  (asksForLabel t args).toNat
    + (t.label.isNone || (t.imagename.bind commandOf).isSome).toNat

/-- The request does nothing that the password protects: there is no image, or it is `help`, or a
name that is not parsed, or the image of a restricted label without arguments. -/
def Harmless (inp : PromptInput) (t : Target) (args : Option CStr) : Prop :=
  match t.imagename with
  | none => True
  | some name =>
    name = helpName
      ∨ commandOf name = none
        ∧ (inp.parse name = false
          ∨ t.label.isSome = true ∧ t.restricted = true ∧ args.getD [] = [])

/-- `passwdinit` returns a buffer in its call `i`, or did so before. -/
def HasBuffer (inp : PromptInput) (i : Nat) : Prop :=
  inp.passwdbuff.isSome = true ∨ ∃ j ≤ i, inp.malloc j = true

/-- The condition: a call that gets as far as a target finds it harmless, or has a buffer for the
last check. -/
def Guarded (inp : PromptInput) : Prop :=
  inp.cmdbuff = true → ∀ imagename args keys t, request inp = some (imagename, args, keys) →
    findTarget inp imagename = some t →
    Harmless inp t args ∨ HasBuffer inp (checks t args - 1)

/-! ## §3 One check -/

section Checks

variable {inp : PromptInput} {password : CStr} {s : Session}

theorem TypedMatch.mono {events : List Event} (h : TypedMatch inp password events)
    (new : List Event) : TypedMatch inp password (events ++ new) := by
  obtain ⟨text, hin, hmatch⟩ := h
  exact ⟨text, List.mem_append_left _ hin, hmatch⟩

/-- No command is among the events. -/
def Quiet (events : List Event) : Prop := ∀ event ∈ events, ¬ event.IsCommand

theorem Quiet.snoc {events : List Event} (h : Quiet events) {event : Event}
    (hevent : ¬ event.IsCommand) : Quiet (events ++ [event]) := by
  intro e he
  rcases List.mem_append.mp he with he | he
  · exact h e he
  · rwa [List.mem_singleton.mp he]

/-- Typing adds no command, keeps the buffer, and returns only with the password. -/
theorem passwordLoop_spec (attempts : Nat) : ∀ buf (s : Session), s.passwdbuff.isSome = true →
    Quiet s.events →
    Quiet (passwordLoop inp password attempts buf s).1.events
      ∧ (passwordLoop inp password attempts buf s).1.passwdbuff.isSome = true
      ∧ ((passwordLoop inp password attempts buf s).2 = true →
          TypedMatch inp password (passwordLoop inp password attempts buf s).1.events) := by
  induction attempts with
  | zero =>
    intro buf s hbuf hquiet
    refine ⟨hquiet.snoc id, hbuf, fun h => ?_⟩
    cases h
  | succ attempts ih =>
    intro buf s hbuf hquiet
    rw [passwordLoop]
    cases hedit : bufferEdit none s.keys buf with
    | none =>
      refine ⟨hquiet, hbuf, fun h => ?_⟩
      cases h
    | some r =>
      obtain ⟨typed, keys⟩ := r
      simp only
      have htyped : Quiet (s.events ++ [.typed typed]) := hquiet.snoc id
      by_cases hmatch : passwordMatches inp password typed = true
      · rw [if_pos hmatch]
        exact ⟨htyped, rfl, fun _ => ⟨typed, by simp, hmatch⟩⟩
      · rw [if_neg hmatch]
        exact ih typed _ rfl htyped

/-- Without a buffer the check returns at once. -/
theorem checkPassword_none (hbuf : s.passwdbuff = none) (hmalloc : inp.malloc s.mallocs = false) :
    checkPassword inp password s = ({ s with mallocs := s.mallocs + 1 }, true) := by
  simp only [checkPassword, passwdinit, hbuf, hmalloc, Bool.false_eq_true, if_false]

/-- With one it returns only with the password. -/
theorem checkPassword_spec (h : s.passwdbuff.isSome = true ∨ inp.malloc s.mallocs = true)
    (hquiet : Quiet s.events) :
    Quiet (checkPassword inp password s).1.events
      ∧ (checkPassword inp password s).1.passwdbuff.isSome = true
      ∧ ((checkPassword inp password s).2 = true →
          TypedMatch inp password (checkPassword inp password s).1.events) := by
  have hinit : (passwdinit inp s).passwdbuff = some [] ∧ (passwdinit inp s).events = s.events := by
    rw [passwdinit]
    cases hbuf : s.passwdbuff with
    | some buf => exact ⟨rfl, rfl⟩
    | none =>
      rcases h with h | h
      · rw [hbuf] at h
        cases h
      · exact ⟨by simp only [h, if_true], rfl⟩
  simp only [checkPassword, hinit.1]
  exact passwordLoop_spec 3 [] _ (by rw [hinit.1]; rfl) (by rw [hinit.2]; exact hquiet)

/-- Nothing has been typed in `i` checks: there was no buffer. -/
structure Unchecked (inp : PromptInput) (i : Nat) (s : Session) : Prop where
  events : s.events = []
  passwdbuff : s.passwdbuff = inp.passwdbuff
  mallocs : s.mallocs = i
  missing : ∀ j < i, ¬ HasBuffer inp j

/-- The password has been typed. -/
structure Checked (inp : PromptInput) (password : CStr) (s : Session) : Prop where
  typed : TypedMatch inp password s.events
  quiet : Quiet s.events
  passwdbuff : s.passwdbuff.isSome = true

theorem Unchecked.quiet {i : Nat} (h : Unchecked inp i s) : Quiet s.events := by
  rw [h.events]
  intro event hin
  cases hin

theorem Unchecked.not_typed {i : Nat} (h : Unchecked inp i s) :
    ¬ TypedMatch inp password s.events := by
  rintro ⟨text, hin, -⟩
  rw [h.events] at hin
  cases hin

/-- The buffer that a check finds when nothing was typed before. -/
theorem Unchecked.hasBuffer_iff {i : Nat} (h : Unchecked inp i s) :
    HasBuffer inp i ↔ s.passwdbuff.isSome = true ∨ inp.malloc s.mallocs = true := by
  rw [h.passwdbuff, h.mallocs]
  constructor
  · rintro (hbuf | ⟨j, hj, hmalloc⟩)
    · exact .inl hbuf
    · rcases Nat.lt_or_eq_of_le hj with hlt | rfl
      · exact absurd (.inr ⟨j, Nat.le_refl j, hmalloc⟩) (h.missing j hlt)
      · exact .inr hmalloc
  · rintro (hbuf | hmalloc)
    · exact .inl hbuf
    · exact .inr ⟨i, Nat.le_refl i, hmalloc⟩

/-- Without a buffer a check changes nothing that matters. -/
theorem Unchecked.checkIf {i : Nat} (h : Unchecked inp i s) (hpw : inp.password = some password)
    (asks : Bool) (hbuf : asks = true → ¬ HasBuffer inp i) :
    ∃ t, checkIf asks inp s = (t, true) ∧ Unchecked inp (i + asks.toNat) t := by
  cases asks with
  | false => exact ⟨s, by simp only [Boot.checkIf], h⟩
  | true =>
    have hno := hbuf rfl
    rw [h.hasBuffer_iff, not_or] at hno
    have hnone : s.passwdbuff = none := by simpa using hno.1
    refine ⟨{ s with mallocs := s.mallocs + 1 }, ?_, h.events, h.passwdbuff, ?_, fun j hj => ?_⟩
    · simp only [Boot.checkIf, hpw]
      exact checkPassword_none hnone (by simpa using hno.2)
    · exact congrArg (· + 1) h.mallocs
    · rcases Nat.lt_succ_iff_lt_or_eq.mp hj with hlt | rfl
      · exact h.missing j hlt
      · exact hbuf rfl

/-- The password has been typed, or there was no buffer. -/
def Passed (inp : PromptInput) (password : CStr) (i : Nat) (s : Session) : Prop :=
  Checked inp password s ∨ Unchecked inp i s

theorem Passed.quiet {i : Nat} (h : Passed inp password i s) : Quiet s.events := by
  rcases h with h | h
  · exact h.quiet
  · exact h.quiet

/-- One check: behind it the password has been typed if there was a buffer. -/
theorem Passed.checkIf {i : Nat} (h : Passed inp password i s)
    (hpw : inp.password = some password) (asks : Bool) :
    Quiet (checkIf asks inp s).1.events
      ∧ ((checkIf asks inp s).2 = true →
          Passed inp password (i + asks.toNat) (checkIf asks inp s).1
            ∧ (asks = true → HasBuffer inp i → Checked inp password (checkIf asks inp s).1)) := by
  cases asks with
  | false =>
    refine ⟨h.quiet, fun _ => ⟨h, fun hasks => ?_⟩⟩
    cases hasks
  | true =>
    simp only [Boot.checkIf, hpw]
    have hspec : s.passwdbuff.isSome = true ∨ inp.malloc s.mallocs = true →
        Quiet (checkPassword inp password s).1.events
          ∧ ((checkPassword inp password s).2 = true →
            Checked inp password (checkPassword inp password s).1) := by
      intro hbuf
      obtain ⟨hquiet, hsome, htyped⟩ := @checkPassword_spec inp password s hbuf h.quiet
      exact ⟨hquiet, fun hret => ⟨htyped hret, hquiet, hsome⟩⟩
    rcases id h with hc | hu
    · obtain ⟨hquiet, hret⟩ := hspec (.inl hc.passwdbuff)
      exact ⟨hquiet, fun hr => ⟨.inl (hret hr), fun _ _ => hret hr⟩⟩
    · by_cases hbuf : HasBuffer inp i
      · obtain ⟨hquiet, hret⟩ := hspec (hu.hasBuffer_iff.mp hbuf)
        exact ⟨hquiet, fun hr => ⟨.inl (hret hr), fun _ _ => hret hr⟩⟩
      · obtain ⟨t, hrun, ht⟩ := hu.checkIf hpw true fun _ => hbuf
        simp only [Boot.checkIf, hpw] at hrun
        rw [hrun]
        exact ⟨ht.quiet, fun _ => ⟨.inr ht, fun _ hno => absurd hno hbuf⟩⟩

end Checks

/-! ## §4 The look-up -/

section Targets

variable {inp : PromptInput} {imagename args : Option CStr} {keys : List Int} {t : Target}

/-- What the look-up finds: no label, or the name as a label with an image, restricted by the
global flag or its own. -/
theorem findTarget_cases (h : findTarget inp imagename = some t) :
    (t.label = none ∧ t.imagename = imagename ∧ (inp.useconf = true →
        ∃ p, cfgGetStrg inp.cfg imagename imageName = some p ∧ p.getD [] = []))
    ∨ (inp.useconf = true ∧ ∃ everywhere image own,
        cfgGetFlag inp.cfg none "restricted".toList = some everywhere
        ∧ cfgGetStrg inp.cfg imagename imageName = some (some image) ∧ image ≠ []
        ∧ cfgGetFlag inp.cfg imagename "restricted".toList = some own
        ∧ t = ⟨imagename, some image, everywhere || own⟩) := by
  rw [findTarget] at h
  split at h
  · rename_i huse
    split at h
    · rename_i everywhere p hflag hstrg
      split at h
      · rename_i hp
        obtain ⟨own, hown, rfl⟩ := Option.map_eq_some_iff.mp h
        cases p with
        | none => exact absurd rfl hp
        | some image => exact .inr ⟨huse, everywhere, image, own, hflag, hstrg, hp, hown, rfl⟩
      · rename_i hp
        cases h
        exact .inl ⟨rfl, rfl, fun _ => ⟨p, hstrg, by simpa using hp⟩⟩
    · cases h
  · rename_i huse
    cases h
    exact .inl ⟨rfl, rfl, fun hyes => absurd hyes huse⟩

/-- The exception in terms of the target. -/
theorem restrictedLabel_iff (hreq : request inp = some (imagename, args, keys))
    (h : findTarget inp imagename = some t) :
    RestrictedLabel inp ↔ t.label.isSome = true ∧ t.restricted = true ∧ args.getD [] = [] := by
  constructor
  · rintro ⟨label, args', keys', image, hreq', hargs, huse, himage, hne, hflag⟩
    rw [hreq] at hreq'
    cases hreq'
    rcases findTarget_cases h with ⟨-, -, hno⟩ | ⟨-, everywhere, image', own, hall, -, -, hown, rfl⟩
    · obtain ⟨p, hp, hempty⟩ := hno huse
      rw [himage] at hp
      cases hp
      exact absurd hempty hne
    · refine ⟨rfl, ?_, hargs⟩
      rw [hall, hown] at hflag
      rcases hflag with hflag | hflag
      · cases hflag
        rfl
      · cases hflag
        exact Bool.or_true _
  · rintro ⟨hlabel, hrestricted, hargs⟩
    rcases findTarget_cases h with ⟨hnone, -⟩ | ⟨huse, everywhere, image, own, hall, himage, hne,
      hown, rfl⟩
    · rw [hnone] at hlabel
      cases hlabel
    · obtain ⟨label, rfl⟩ := Option.isSome_iff_exists.mp hlabel
      refine ⟨label, args, keys, image, hreq, hargs, huse, himage, hne, ?_⟩
      rw [hall, hown]
      rcases Bool.or_eq_true _ _ ▸ hrestricted with rfl | rfl
      · exact .inl rfl
      · exact .inr rfl

end Targets

/-! ## §5 The call -/

section Call

variable {inp : PromptInput} {password : CStr} {args : Option CStr} {t : Target} {s : Session}

theorem Quiet.commandsSafe {events : List Event} (h : Quiet events) :
    CommandsSafe inp password events := by
  rintro pre event post rfl hcommand
  exact absurd hcommand (h event (by simp))

/-- A command behind events that hold none. -/
theorem commandsSafe_snoc {events : List Event} (h : Quiet events) {event : Event}
    (hcommand : event.IsCommand) :
    CommandsSafe inp password (events ++ [event]) ↔ TypedMatch inp password events := by
  constructor
  · intro hsafe
    exact hsafe events event [] rfl hcommand
  · intro htyped pre e post hsplit he
    rcases List.append_eq_append_iff.mp hsplit with ⟨mid, rfl, hmid⟩ | ⟨mid, rfl, hmid⟩
    · exact htyped.mono mid
    · -- the command would be among the quiet events
      cases mid with
      | nil => simpa using htyped
      | cons e' mid =>
        cases hmid
        exact absurd he (h e (by simp))

theorem commandOf_isCommand {name : CStr} {event : Event} {result : GetParamsResult}
    (h : commandOf name = some (event, result)) : event.IsCommand ∧ result ≠ .ok := by
  unfold commandOf at h
  split at h
  · cases h
    exact ⟨trivial, by decide⟩
  · split at h
    · cases h
      exact ⟨trivial, by decide⟩
    · split at h
      · cases h
        exact ⟨trivial, by decide⟩
      · cases h

/-- The condition of one run from the target on, with what may be booted without a password. -/
def RunSafe (inp : PromptInput) (password : CStr) (exempt : Prop)
    (r : Session × Option GetParamsResult) : Prop :=
  (r.2 = some .ok → TypedMatch inp password r.1.events ∨ exempt)
    ∧ CommandsSafe inp password r.1.events

theorem runSafe_quiet {exempt : Prop} {result : Option GetParamsResult} (h : Quiet s.events)
    (hresult : result ≠ some .ok) : RunSafe inp password exempt (s, result) :=
  ⟨fun hok => absurd hok hresult, h.commandsSafe⟩

/-- The image of a restricted label, without arguments. -/
def Exempt (t : Target) (args : Option CStr) : Prop :=
  t.label.isSome = true ∧ t.restricted = true ∧ args.getD [] = []

/-- Whether there is a check behind the one for the label. -/
def lastCheck (t : Target) : Bool := t.label.isNone || (t.imagename.bind commandOf).isSome

theorem lastCheck_command {name : CStr} {r : Event × GetParamsResult}
    (himage : t.imagename = some name) (hcommand : commandOf name = some r) :
    lastCheck t = true := by
  simp [lastCheck, himage, hcommand]

theorem lastCheck_image {name : CStr} (himage : t.imagename = some name)
    (hcommand : commandOf name = none) : lastCheck t = t.label.isNone := by
  simp [lastCheck, himage, hcommand]

theorem harmless_command {name : CStr} {r : Event × GetParamsResult}
    (himage : t.imagename = some name) (hhelp : name ≠ helpName)
    (hcommand : commandOf name = some r) : ¬ Harmless inp t args := by
  simp [Harmless, himage, hhelp, hcommand]

theorem harmless_image {name : CStr} (himage : t.imagename = some name) (hhelp : name ≠ helpName)
    (hcommand : commandOf name = none) :
    Harmless inp t args ↔ inp.parse name = false ∨ Exempt t args := by
  simp [Harmless, himage, hhelp, hcommand, Exempt]

/-- With a buffer where it matters, the rest of the call is safe. -/
theorem runTarget_safe {i : Nat} (hpw : inp.password = some password)
    (h : Passed inp password i s)
    (hlast : lastCheck t = true → Harmless inp t args ∨ HasBuffer inp i)
    (hlabel : lastCheck t = false →
      Harmless inp t args ∨ TypedMatch inp password s.events) :
    RunSafe inp password (Exempt t args) (runTarget inp t s) := by
  unfold runTarget
  cases himage : t.imagename with
  | none => exact runSafe_quiet h.quiet (by simp)
  | some name =>
    by_cases hhelp : name = helpName
    · simp only [hhelp, if_true]
      exact runSafe_quiet h.quiet (by simp)
    simp only [hhelp, if_false]
    cases hcommand : commandOf name with
    | some r =>
      obtain ⟨event, result⟩ := r
      obtain ⟨hevent, hresult⟩ := commandOf_isCommand hcommand
      obtain ⟨hquiet, hret⟩ := h.checkIf hpw true
      have hbuf := (hlast (lastCheck_command himage hcommand)).resolve_left
        (harmless_command himage hhelp hcommand)
      generalize checkIf true inp s = r at hquiet hret
      obtain ⟨s', ret⟩ := r
      cases ret with
      | false => exact runSafe_quiet hquiet (by simp)
      | true =>
        refine ⟨fun hok => absurd (Option.some.inj hok) hresult, ?_⟩
        exact (commandsSafe_snoc hquiet hevent).mpr ((hret rfl).2 rfl hbuf).typed
    | none =>
      obtain ⟨hquiet, hret⟩ := h.checkIf hpw t.label.isNone
      rw [lastCheck_image himage hcommand, harmless_image himage hhelp hcommand] at hlast hlabel
      cases hparse : inp.parse name with
      | false =>
        generalize checkIf t.label.isNone inp s = r at hquiet hret
        obtain ⟨s', ret⟩ := r
        cases ret with
        | false => exact runSafe_quiet hquiet (by simp)
        | true => exact runSafe_quiet hquiet (by simp)
      | true =>
        rw [hparse] at hlast hlabel
        cases hnone : t.label.isNone with
        | true =>
          have hexempt : ¬ Exempt t args := fun he => by
            have hsome := he.1
            rw [← Option.not_isNone, hnone] at hsome
            cases hsome
          have hbuf := (hlast hnone).resolve_left (by simp [hexempt])
          rw [hnone] at hquiet hret
          generalize checkIf true inp s = r at hquiet hret
          obtain ⟨s', ret⟩ := r
          cases ret with
          | false => exact runSafe_quiet hquiet (by simp)
          | true =>
            have htyped := ((hret rfl).2 rfl hbuf).typed
            exact ⟨fun _ => .inl htyped, hquiet.commandsSafe⟩
        | false =>
          have hrun : checkIf false inp s = (s, true) := by simp only [checkIf]
          rw [hrun]
          refine ⟨fun _ => ?_, h.quiet.commandsSafe⟩
          rcases hlabel hnone with (hno | he) | htyped
          · cases hno
          · exact .inr he
          · exact .inl htyped

/-- Without a buffer in any check, what is not harmless is not safe. -/
theorem runTarget_unsafe {i : Nat} (hpw : inp.password = some password) (h : Unchecked inp i s)
    (hlast : lastCheck t = true → ¬ HasBuffer inp i) (hharm : ¬ Harmless inp t args) :
    ¬ RunSafe inp password (Exempt t args) (runTarget inp t s) := by
  unfold runTarget
  cases himage : t.imagename with
  | none =>
    refine absurd ?_ hharm
    simp [Harmless, himage]
  | some name =>
    by_cases hhelp : name = helpName
    · refine absurd ?_ hharm
      simp [Harmless, himage, hhelp]
    simp only [hhelp, if_false]
    cases hcommand : commandOf name with
    | some r =>
      obtain ⟨event, result⟩ := r
      obtain ⟨s', hrun, hs'⟩ := h.checkIf hpw true fun _ =>
        hlast (lastCheck_command himage hcommand)
      simp only [hrun]
      rintro ⟨-, hsafe⟩
      exact hs'.not_typed ((commandsSafe_snoc hs'.quiet (commandOf_isCommand hcommand).1).mp hsafe)
    | none =>
      rw [harmless_image himage hhelp hcommand, not_or] at hharm
      obtain ⟨s', hrun, hs'⟩ := h.checkIf hpw t.label.isNone fun hnone =>
        hlast (by rwa [lastCheck_image himage hcommand])
      simp only [hrun, hharm.1]
      rintro ⟨hsafe, -⟩
      rcases hsafe rfl with htyped | hexempt
      · exact hs'.not_typed htyped
      · exact hharm.2 hexempt

theorem HasBuffer.mono {i j : Nat} (h : HasBuffer inp i) (hij : i ≤ j) : HasBuffer inp j := by
  rcases h with hbuf | ⟨k, hk, hmalloc⟩
  · exact .inl hbuf
  · exact .inr ⟨k, Nat.le_trans hk hij, hmalloc⟩

theorem checks_eq (t : Target) (args : Option CStr) :
    checks t args = (asksForLabel t args).toNat + (lastCheck t).toNat := rfl

/-- Where nothing is asked at all, the image of a restricted label is booted without
arguments. -/
theorem harmless_of_not_asked (hasks : asksForLabel t args = false)
    (hlast : lastCheck t = false) : Harmless inp t args := by
  cases himage : t.imagename with
  | none => simp [Harmless, himage]
  | some name =>
    by_cases hhelp : name = helpName
    · simp [Harmless, himage, hhelp]
    cases hcommand : commandOf name with
    | some r =>
      rw [lastCheck_command himage hcommand] at hlast
      cases hlast
    | none =>
      rw [lastCheck_image himage hcommand] at hlast
      rw [harmless_image himage hhelp hcommand]
      right
      have hlabel : t.label.isSome = true := by
        rw [← Option.not_isNone, hlast]
        rfl
      have hargs : t.restricted = true ∧ args = none := by
        cases hr : t.restricted with
        | false => simp [asksForLabel, hlabel, hr] at hasks
        | true =>
          cases args with
          | none => exact ⟨rfl, rfl⟩
          | some text => simp [asksForLabel, hlabel, hr] at hasks
      exact ⟨hlabel, hargs.1, by rw [hargs.2]; rfl⟩

/-- The condition for a call that gets to a target. -/
theorem guarded_iff {imagename : Option CStr} {keys : List Int} (hcmdbuff : inp.cmdbuff = true)
    (hreq : request inp = some (imagename, args, keys))
    (htarget : findTarget inp imagename = some t) :
    Guarded inp ↔ Harmless inp t args ∨ HasBuffer inp (checks t args - 1) := by
  constructor
  · intro h
    exact h hcmdbuff imagename args keys t hreq htarget
  · intro h _ imagename' args' keys' t' hreq' htarget'
    rw [hreq] at hreq'
    cases hreq'
    rw [htarget] at htarget'
    cases htarget'
    exact h

/-- The check for the label and what follows it. -/
theorem call_safe_iff (hpw : inp.password = some password) (h : Unchecked inp 0 s)
    {s' : Session} {ret : Bool} (hrun : checkIf (asksForLabel t args) inp s = (s', ret)) :
    RunSafe inp password (Exempt t args) (if ret then runTarget inp t s' else (s', none))
      ↔ Harmless inp t args ∨ HasBuffer inp (checks t args - 1) := by
  constructor
  · intro hsafe
    by_contra hno
    rw [not_or] at hno
    obtain ⟨s₁, hrun₁, hs₁⟩ := h.checkIf hpw (asksForLabel t args) fun _ hbuf =>
      hno.2 (hbuf.mono (Nat.zero_le _))
    rw [hrun] at hrun₁
    cases hrun₁
    rw [Nat.zero_add] at hs₁
    refine runTarget_unsafe hpw hs₁ (fun hlast hbuf => hno.2 (hbuf.mono ?_)) hno.1 hsafe
    rw [checks_eq, hlast]
    exact Nat.le_refl _
  · intro hcond
    obtain ⟨hquiet, hret⟩ := Passed.checkIf (.inr h) hpw (asksForLabel t args)
    rw [hrun] at hquiet hret
    cases ret with
    | false => exact runSafe_quiet hquiet (by simp)
    | true =>
      obtain ⟨hpassed, hchecked⟩ := hret rfl
      rw [Nat.zero_add] at hpassed
      refine runTarget_safe hpw hpassed (fun hlast => ?_) fun hlast => ?_
      · rw [checks_eq, hlast] at hcond
        exact hcond
      · cases hasks : asksForLabel t args with
        | false => exact .inl (harmless_of_not_asked hasks hlast)
        | true =>
          rw [checks_eq, hlast, hasks] at hcond
          exact hcond.imp_right fun hbuf => (hchecked hasks hbuf).typed

end Call

/-- **The password is safe just where a missing buffer does not matter.** -/
theorem password_safe_iff (inp : PromptInput) (password : CStr)
    (hpw : inp.password = some password) : PasswordSafe inp password ↔ Guarded inp := by
  show RunSafe inp password (RestrictedLabel inp) (getParams inp) ↔ Guarded inp
  have hstart : Unchecked inp 0 ⟨inp.keys, inp.passwdbuff, 0, []⟩ :=
    ⟨rfl, rfl, rfl, fun j hj => absurd hj (Nat.not_lt_zero j)⟩
  unfold getParams
  cases hcmdbuff : inp.cmdbuff with
  | false =>
    refine iff_of_true (runSafe_quiet hstart.quiet (by simp)) fun h => ?_
    rw [hcmdbuff] at h
    cases h
  | true =>
    cases hreq : request inp with
    | none =>
      refine iff_of_true (runSafe_quiet hstart.quiet (by simp)) fun _ imagename args keys t h => ?_
      rw [hreq] at h
      cases h
    | some r =>
      obtain ⟨imagename, args, keys⟩ := r
      cases htarget : findTarget inp imagename with
      | none =>
        simp only [htarget]
        refine iff_of_true (runSafe_quiet hstart.quiet (by simp)) fun _ _ _ _ t h ht => ?_
        rw [hreq] at h
        cases h
        rw [htarget] at ht
        cases ht
      | some t =>
        have hkeys : Unchecked inp 0 ⟨keys, inp.passwdbuff, 0, []⟩ :=
          ⟨rfl, rfl, rfl, hstart.missing⟩
        rw [guarded_iff hcmdbuff hreq htarget,
          show RestrictedLabel inp = Exempt t args from propext (restrictedLabel_iff hreq htarget)]
        cases hrun : checkIf (asksForLabel t args) inp ⟨keys, inp.passwdbuff, 0, []⟩ with
        | mk s' ret =>
          have hcall := call_safe_iff hpw hkeys hrun
          simp only [htarget, hrun]
          cases ret with
          | false => exact hcall
          | true => exact hcall

/-! ## §6 A configuration with a password -/

/-- `password=secret`, and the label `linux` of a restricted image. -/
def securedCfg : CfgState :=
  cfgItems (fun _ => true) (cfgStart 64)
    [("password".toList, some "secret".toList), ("image".toList, some "/vmlinux".toList),
     ("label".toList, some "linux".toList), ("restricted".toList, none)]

/-- A call with these keys, where `passwdinit` finds memory or not. -/
def securedPrompt (malloc : Bool) (keys : List Int) : PromptInput where
  useconf := true
  cfg := securedCfg
  password := some "secret".toList
  liloOnceCmdline := []
  gprOk := true
  cmdbuff := true
  passwdbuff := none
  malloc := fun _ => malloc
  pressed := 0
  keys := keys
  tab := id
  parse := fun _ => true
  md5 := fun _ _ => false

/-- `/evil` and Return. -/
def evilKeys : List Int := [47, 101, 118, 105, 108, 10]

theorem securedPrompt_safe_iff :
    PasswordSafe (securedPrompt true evilKeys) "secret".toList
      ↔ Guarded (securedPrompt true evilKeys) :=
  password_safe_iff (securedPrompt true evilKeys) "secret".toList rfl

/-- Without memory for a password buffer any image is booted, and nothing is typed. -/
theorem evil_boots_unchecked :
    getParams (securedPrompt false evilKeys) = (⟨[], none, 1, []⟩, some .ok)
      ∧ ¬ PasswordSafe (securedPrompt false evilKeys) "secret".toList := by
  have hrun : getParams (securedPrompt false evilKeys) = (⟨[], none, 1, []⟩, some .ok) := by
    decide +kernel
  have hreq : request (securedPrompt false evilKeys) = some (some "/evil".toList, none, []) := by
    decide +kernel
  have hlabel : cfgGetStrg securedCfg (some "/evil".toList) imageName = some none := by
    decide +kernel
  refine ⟨hrun, fun h => ?_⟩
  have hok := h.1
  rw [hrun] at hok
  rcases hok rfl with ⟨text, hin, -⟩ | ⟨label, args, keys, image, hreq', -, -, himage, -⟩
  · cases hin
  · rw [hreq] at hreq'
    cases hreq'
    rw [show (securedPrompt false evilKeys).cfg = securedCfg from rfl, hlabel] at himage
    cases himage

end LiloBoot.Boot
