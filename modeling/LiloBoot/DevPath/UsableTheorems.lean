/-
LiloBoot.DevPath.UsableTheorems — which accepted image paths can be opened.

`imagepath_to_path_description` returns 1 for every network path, whatever the
options parser found. A file name comes only from the text behind the options:
for IPv4 from what follows the comma after the server, for IPv6 from a scan
that found an option. An `iscsi` path never gets one.
-/
import LiloBoot.DevPath.NetTheorems

namespace LiloBoot.DevPath

/-! ## §1 What the callers dereference -/

/-- `open_file`, `of_net_open` and `path_description_to_string` read these without a check. -/
structure Usable (d : PathDescription) : Prop where
  device : d.device ≠ none
  filename : d.filename ≠ none
  before : d.type = .net → d.netBefore ≠ none

/-- The options of a network device name a file. -/
def OptionsName (fuel : Nat) (options : CStr) : Prop :=
  ∀ flags offset, scanOptions fuel options 0 = some (flags, offset) →
    flags &&& flagIscsi = 0 ∧
      if flags &&& flagIpv6 ≠ 0 then
        ∀ found, parseOptions fuel options offset flags tftpIpv6BootstrapOptions flagFilename
          = some found → found.2 ≠ 0
      else ',' ∈ options.drop offset

/-- A full path that is not on a network device, or whose options name a file. -/
def PathNames (fw : Firmware) (fuel : Nat) (path : CStr) : Prop :=
  fw.devtype (path.takeWhile (· ≠ ':')) = .net →
    OptionsName fuel (path.drop ((path.takeWhile (· ≠ ':')).length + 1))

/-- The condition on an image path and the default device: the full path that is parsed for them
names a file. -/
def ImageNames (fw : Firmware) (fuel : Nat) (default : PathDescription) (imagepath : CStr) : Prop :=
  if ':' ∈ imagepath ∧ ¬ deviceMark.isPrefixOf imagepath then PathNames fw fuel imagepath
  else if default.type = .iscsi then default.device ≠ none
  else ∀ path, defaultPathname default ((strchr imagepath ':').map List.tail) imagepath = some path →
    PathNames fw fuel path

/-! ## §2 Options -/

section Options

variable {fw : Firmware} {fuel offset : Nat} {path d : PathDescription} {options : CStr}

/-- Nothing of a file has been found yet. -/
def Nameless (path : PathDescription) : Prop :=
  path.device ≠ none ∧ path.filename = none ∧ path.s1 = none

theorem strchr_isSome {s : CStr} {c : Char} : (strchr s c).isSome = true ↔ c ∈ s := by
  rw [← not_iff_not, ← strchr_eq_none]
  simp

/-- The options behind `ipv6` name a file when there are any. -/
theorem getTftpIpv6Options_usable (hpath : Nameless path)
    (h : getTftpIpv6Options fuel path options offset = some d) {found : Nat × Nat}
    (hscan : parseOptions fuel options offset path.flags tftpIpv6BootstrapOptions flagFilename
      = some found) : Usable d ↔ found.2 ≠ 0 := by
  obtain ⟨flags, len⟩ := found
  simp only [getTftpIpv6Options, Option.bind_eq_bind, hscan, Option.bind_some] at h
  by_cases hlen : len = 0
  · rw [if_pos hlen] at h
    cases h
    exact iff_of_false (fun hd => hd.filename hpath.2.1) (fun hne => hne hlen)
  · rw [if_neg hlen] at h
    refine iff_of_true ?_ hlen
    split at h
    · cases h
      exact ⟨hpath.1, Option.some_ne_none _, fun _ => Option.some_ne_none _⟩
    · cases h
      exact ⟨hpath.1, Option.some_ne_none _, fun _ => Option.some_ne_none _⟩

/-- The firmware's new boot path takes the file name from behind the first comma. -/
theorem casFields_name (rest : CStr) : (casFields rest).1 ≠ none ↔ ',' ∈ rest := by
  rw [casFields]
  rcases Option.eq_none_or_eq_some (strchr rest ',') with hnone | ⟨p, hp⟩
  · rw [hnone]
    exact iff_of_false (fun h => h rfl) (strchr_eq_none.mp hnone)
  · have hin : ',' ∈ rest := strchr_isSome.mp (by rw [hp]; rfl)
    refine iff_of_true ?_ hin
    rw [hp]
    simp only [Option.map_some]
    split
    · exact Option.some_ne_none _
    · split
      · exact Option.some_ne_none _
      · split
        · exact Option.some_ne_none _
        · exact Option.some_ne_none _

theorem getTftpIpv4IbmCAS_usable (hpath : Nameless path)
    (h : getTftpIpv4IbmCAS fw path options offset = some d) :
    Usable d ↔ ',' ∈ options.drop offset := by
  rw [getTftpIpv4IbmCAS] at h
  rcases Option.eq_none_or_eq_some fw.bootpResponse with hnone | ⟨⟨size, dp⟩, hsome⟩
  · rw [hnone] at h
    cases h
  rw [hsome] at h
  rw [← casFields_name]
  generalize casFields (options.drop offset) = fields at h
  obtain ⟨name, gateway, p⟩ := fields
  cases h
  cases name with
  | none => exact iff_of_false (fun hd => hd.filename hpath.2.1) (fun hne => hne rfl)
  | some name =>
    exact iff_of_true ⟨hpath.1, Option.some_ne_none _, fun _ => Option.some_ne_none _⟩
      (Option.some_ne_none _)

/-- IPv4 options name a file behind the comma after the server. -/
theorem getTftpIpv4Options_usable (hpath : Nameless path) :
    Usable (getTftpIpv4Options fw path options offset) ↔ ',' ∈ options.drop offset := by
  simp only [getTftpIpv4Options]
  by_cases hrest : options.drop offset = []
  · rw [if_pos hrest, hrest]
    exact iff_of_false (fun hd => hd.filename hpath.2.1) List.not_mem_nil
  rw [if_neg hrest]
  rcases Option.eq_none_or_eq_some (getTftpIpv4IbmCAS fw path options offset) with
    hcas | ⟨d, hcas⟩
  swap
  · rw [hcas]
    exact getTftpIpv4IbmCAS_usable hpath hcas
  rw [hcas, splitComma]
  rcases Option.eq_none_or_eq_some (strchr (options.drop offset) ',') with hnone | ⟨p, hp⟩
  · rw [hnone]
    exact iff_of_false (fun hd => hd.filename hpath.2.1) (strchr_eq_none.mp hnone)
  · have hin : ',' ∈ options.drop offset := strchr_isSome.mp (by rw [hp]; rfl)
    refine iff_of_true ?_ hin
    rw [hp]
    simp only [Option.map_some]
    split
    · exact ⟨hpath.1, Option.some_ne_none _, fun _ => Option.some_ne_none _⟩
    · exact ⟨hpath.1, Option.some_ne_none _, fun _ => Option.some_ne_none _⟩

/-- An iSCSI path has no file name. -/
theorem getIscsiOptions_filename (path : PathDescription) :
    (getIscsiOptions fw path).filename = path.filename := by
  simp only [getIscsiOptions]
  split <;> rfl

/-- What `parse_net_device` accepts is usable exactly when the options name a file. -/
theorem parseNetDevice_usable_iff (hpath : Nameless path) (hflags : path.flags = 0) :
    (∀ d, parseNetDevice fw fuel path options = some d → Usable d) ↔ OptionsName fuel options := by
  simp only [parseNetDevice, Option.bind_eq_bind, hflags]
  rcases Option.eq_none_or_eq_some (scanOptions fuel options 0) with hnone | ⟨⟨flags, offset⟩, hscan⟩
  · refine iff_of_true (fun d h => ?_) (fun flags offset h => ?_)
    · rw [hnone] at h
      cases h
    · rw [hnone] at h
      cases h
  have hname : OptionsName fuel options ↔ (flags &&& flagIscsi = 0 ∧
      if flags &&& flagIpv6 ≠ 0 then
        ∀ found, parseOptions fuel options offset flags tftpIpv6BootstrapOptions flagFilename
          = some found → found.2 ≠ 0
      else ',' ∈ options.drop offset) := by
    constructor
    · exact fun h => h flags offset hscan
    · intro h f o hfo
      cases hscan.symm.trans hfo
      exact h
  rw [hname, hscan]
  simp only [Option.bind_some]
  have hpath' : Nameless { path with flags := flags } := hpath
  by_cases hiscsi : flags &&& flagIscsi = 0
  swap
  · rw [if_pos hiscsi]
    refine iff_of_false (fun h => ?_) (fun h => hiscsi h.1)
    have hnone := @getIscsiOptions_filename fw { path with flags := flags }
    exact (h _ rfl).filename (hnone.trans hpath.2.1)
  rw [if_neg (not_not_intro hiscsi), and_iff_right hiscsi, getTftpOptions]
  simp only
  by_cases hipv6 : flags &&& flagIpv6 ≠ 0
  · rw [if_pos hipv6, if_pos hipv6]
    rcases Option.eq_none_or_eq_some
      (parseOptions fuel options offset flags tftpIpv6BootstrapOptions flagFilename) with
      hstuck | ⟨found, hfound⟩
    · refine iff_of_true (fun d h => ?_) (fun found h => ?_)
      · simp only [getTftpIpv6Options, Option.bind_eq_bind, hstuck, Option.bind_none] at h
        cases h
      · rw [hstuck] at h
        cases h
    · obtain ⟨d, hd⟩ : ∃ d, getTftpIpv6Options fuel { path with flags := flags } options offset
          = some d := by
        simp only [getTftpIpv6Options, Option.bind_eq_bind, hfound, Option.bind_some]
        split
        · exact ⟨_, rfl⟩
        · split
          · exact ⟨_, rfl⟩
          · exact ⟨_, rfl⟩
      have husable := getTftpIpv6Options_usable hpath' hd hfound
      constructor
      · intro h f hf
        cases hfound.symm.trans hf
        exact husable.mp (h d hd)
      · intro h e he
        cases hd.symm.trans he
        exact husable.mpr (h found hfound)
  · rw [if_neg hipv6, if_neg hipv6, ← @getTftpIpv4Options_usable fw offset _ options hpath']
    constructor
    · exact fun h => h _ rfl
    · intro h d hd
      cases hd
      exact h

end Options

/-! ## §3 Paths -/

/-- A full path that is accepted is usable exactly when it names a file. -/
theorem parseDevicePath_usable_iff (fw : Firmware) (fuel : Nat) (path : CStr) :
    (∀ d, parseDevicePath fw fuel (some path) .zero = some (true, d) → Usable d)
      ↔ PathNames fw fuel path := by
  have hzero : PathDescription.zero.type = .unset := rfl
  rw [PathNames]
  simp only [parseDevicePath, hzero, if_true]
  generalize path.takeWhile (fun c => decide (c ≠ ':')) = device
  generalize path.drop (device.length + 1) = options
  cases htype : fw.devtype device with
  | net =>
    have hname := @parseNetDevice_usable_iff fw fuel
      (netStart device (fw.mac device PathDescription.zero.mac)) options
      ⟨Option.some_ne_none _, rfl, rfl⟩ rfl
    rw [forall_prop_of_true rfl, ← hname]
    constructor
    · intro h d hd
      exact h d (Option.map_eq_some_iff.mpr ⟨d, hd, rfl⟩)
    · intro h d hd
      obtain ⟨e, he, heq⟩ := Option.map_eq_some_iff.mp hd
      cases heq
      exact h d he
  | block =>
    refine iff_of_true (fun d h => ?_) (fun h => by cases h)
    cases h
    simp only [parseBlockDevice]
    split
    · exact ⟨Option.some_ne_none _, Option.some_ne_none _, fun h => by cases h⟩
    · exact ⟨Option.some_ne_none _, Option.some_ne_none _, fun h => by cases h⟩
  | unset => exact iff_of_true (fun d h => by cases h) (fun h => by cases h)
  | unknown => exact iff_of_true (fun d h => by cases h) (fun h => by cases h)
  | invalid => exact iff_of_true (fun d h => by cases h) (fun h => by cases h)
  | iscsi => exact iff_of_true (fun d h => by cases h) (fun h => by cases h)

/-- **Accepted image paths are usable** exactly when the full path that is parsed for them
names a file. -/
theorem imagepath_usable_iff (fw : Firmware) (fuel : Nat) (same : Bool) (imagepath : CStr)
    (result defaultDevice : PathDescription) :
    (∀ d after, imagepathToPathDescription fw fuel same (some imagepath) result defaultDevice
        = some (true, d, after) → Usable d)
      ↔ ImageNames fw fuel (if same then .zero else defaultDevice) imagepath := by
  -- the third component says nothing about the description
  have hfinish : ∀ (parsed : Option (Bool × PathDescription))
      (after : PathDescription → PathDescription),
      (∀ d e, (parsed.map fun answer => (answer.1, answer.2, after answer.2)) = some (true, d, e)
        → Usable d) ↔ ∀ d, parsed = some (true, d) → Usable d := by
    intro parsed after
    constructor
    · intro h d hd
      exact h d (after d) (Option.map_eq_some_iff.mpr ⟨(true, d), hd, rfl⟩)
    · intro h d e hd
      obtain ⟨⟨code, d'⟩, hparsed, heq⟩ := Option.map_eq_some_iff.mp hd
      cases heq
      exact h d' hparsed
  rw [ImageNames]
  simp only [imagepathToPathDescription, strchr_isSome]
  generalize (if same = true then PathDescription.zero else defaultDevice) = default
  by_cases hfull : ':' ∈ imagepath ∧ ¬ deviceMark.isPrefixOf imagepath = true
  · rw [if_pos hfull, if_pos hfull]
    exact (hfinish _ fun r => if same = true then r else default).trans (parseDevicePath_usable_iff fw fuel imagepath)
  rw [if_neg hfull, if_neg hfull]
  by_cases hiscsi : default.type = .iscsi
  · rw [if_pos hiscsi, if_pos hiscsi]
    constructor
    · intro h
      exact (h _ _ rfl).device
    · intro h d e hd
      cases hd
      exact ⟨h, Option.some_ne_none _, fun hnet => by cases hnet⟩
  rw [if_neg hiscsi, if_neg hiscsi]
  refine (hfinish _ fun r => if same = true then r else default).trans ?_
  rcases Option.eq_none_or_eq_some
    (defaultPathname default ((strchr imagepath ':').map List.tail) imagepath) with hnone | ⟨path, hp⟩
  · rw [hnone]
    refine iff_of_true (fun d h => ?_) (fun path h => by cases h)
    cases h
  · rw [hp, parseDevicePath_usable_iff]
    constructor
    · intro h p hpath
      cases hpath
      exact h
    · exact fun h => h path rfl

/-- `enet:10.0.0.1` and `enet:ipv6,` are accepted without a file name, the second one without
`net_before` too. -/
theorem server_alone_unusable :
    (∃ d after, imagepathToPathDescription netFirmware 40 false (some "enet:10.0.0.1".toList) .zero
        .zero = some (true, d, after) ∧ d.filename = none)
      ∧ ∃ d after, imagepathToPathDescription netFirmware 40 false (some "enet:ipv6,".toList) .zero
        .zero = some (true, d, after) ∧ d.type = .net ∧ d.filename = none ∧ d.netBefore = none := by
  refine ⟨⟨{ PathDescription.zero with
    type := .net, device := some ['e', 'n', 'e', 't'], s1 := some "10.0.0.1".toList },
      .zero, by decide +kernel, rfl⟩, ⟨{ PathDescription.zero with
    type := .net, flags := flagQualifier ||| flagIpv6, device := some ['e', 'n', 'e', 't'] },
      .zero, by decide +kernel, rfl, rfl, rfl⟩⟩

end LiloBoot.DevPath
